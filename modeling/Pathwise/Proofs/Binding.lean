import Pathwise.Path.Binding
import Pathwise.Proofs.SortedMap
import Pathwise.Proofs.Substitution
import Pathwise.Proofs.Typing

/-!
# Pathwise.Proofs.Binding

Assignments of expressions to variables, as substitutions and as changes of the state.

A `Vocabulary` is a set of variables in which a name stands for one variable and a length belongs
to one array. Within a vocabulary, and as long as no length is assigned on its own, the
substitution of a list of assignments does in a formula what the assignments do to the state:
`Vocabulary.admits` says that it may be carried out, and `Vocabulary.under_replacement` that it
gives the assigned state.

There are three descriptions of a list of assignments. The program builds a finite substitution
(`Subst.assignMany`), the semantics changes the state one variable after the other
(`State.assignAll`), and between them stands a function from names to expressions (`replacement`),
which the proofs are about. The last assignment of a name counts in all three.

An array is assigned together with its length, so that one assignment replaces two names. It is
this that makes conditions on names necessary: if a length belonged to two arrays, or were
assigned by itself, the state after the assignments would depend on their order in a way that the
substitution does not see.
-/

namespace Pathwise

/-! ## Assignment to the state

What is put into a variable is a value with a length beside it. Items are taken from a state
before anything is assigned, as the arguments of a call are. -/

/-- What goes into a variable: a value, and its length if it is an array. -/
structure Item (M : Meaning) where
  datum : Datum M.Num
  length : Option (Datum M.Num)

/-- What an expression stands for in a state. -/
noncomputable def Expr.item (M : Meaning) (s : State M) (e : Expr) : Item M :=
  ⟨e.value M s, e.lengthValue? M s⟩

/-- What an expression stands for depends on the variables that it reads, and for an array on the
lengths that go with them. -/
theorem Expr.item_congr {M : Meaning} {e : Expr} {s t : State M}
    (h : ∀ v ∈ e.reads [], AgreeOn s t v) : e.item M s = e.item M t := by
  have hlength : e.lengthValue? M s = e.lengthValue? M t := by
    rw [lengthValue?_eq, lengthValue?_eq]
    cases hr : e.arrayLength? with
    | none => rfl
    | some r =>
        have agree : ∀ v ∈ r.reads [], AgreeOn s t v := by
          intro v hv w hw
          obtain ⟨u, hu, hvu⟩ := mem_reads_of_arrayLength? hr hv
          exact h u hu w (Variable.withLength_subset hvu hw)
        rw [Option.map_some, Option.map_some, (sameItem_of_agreeOn r agree).value]
  rw [item, item, (sameItem_of_agreeOn e h).value, hlength]

namespace State

variable {M : Meaning}

/-- Put an item into a variable. An array takes its length along, which is set last and so would
win if the names were the same. -/
def assign (s : State M) (v : Variable) (i : Item M) : State M :=
  match v.length?, i.length with
  | some l, some n => (s.set v.name i.datum).set l.name n
  | _, _ => s.set v.name i.datum

/-- Put items into variables, one after the other. -/
def assignAll (s : State M) (items : List (Variable × Item M)) : State M :=
  items.foldl (fun s (v, i) => s.assign v i) s

@[simp] theorem assignAll_cons (s : State M) (v : Variable) (i : Item M)
    (rest : List (Variable × Item M)) :
    s.assignAll ((v, i) :: rest) = (s.assign v i).assignAll rest := rfl

theorem assignAll_append (s : State M) (items rest : List (Variable × Item M)) :
    s.assignAll (items ++ rest) = (s.assignAll items).assignAll rest := List.foldl_append

end State

/-! ## Assignment as substitution

The substitution that is built for a list of assignments, described name by name. It exists if the
expressions fit their variables. -/

/-- An expression may be assigned to a variable. This is more than `Variable.assignment` asks for,
which does not look at the length of what goes into a scalar, nor at the type of a length. -/
structure Variable.Fits (v : Variable) (e : Expr) : Prop where
  ty : v.ty = e.ty
  /-- An array, and nothing else, gets a length. -/
  length : e.arrayLength?.isSome = v.length?.isSome
  lengthTy : ∀ n, e.arrayLength? = some n → n.ty = .int

/-- What is assigned to an array has a length. -/
theorem Variable.Fits.exists_length {v l : Variable} {e : Expr} (h : v.Fits e)
    (hl : v.length? = some l) : ∃ n, e.arrayLength? = some n :=
  Option.isSome_iff_exists.1 (by rw [h.length, hl]; rfl)

/-- What the assignment of an expression to a variable replaces a name by. The name of the length
is looked at first, as in the map that `Variable.assignment` builds. -/
def Variable.replaces (v : Variable) (e : Expr) (x : String) : Option Expr :=
  match v.length? with
  | some l => if x = l.name then e.arrayLength? else if x = v.name then some e else none
  | none => if x = v.name then some e else none

/-- What a list of assignments replaces a name by. An assignment to an array replaces its length
too, and of several that replace a name the last one counts. -/
def replacement : List (Variable × Expr) → String → Option Expr
  | [], _ => none
  | (v, e) :: rest, x => (replacement rest x).or (v.replaces e x)

/-- The substitution of one assignment is in order and makes its replacements. Being in order is
needed to join it with others. -/
theorem Variable.assignment_ok {v : Variable} {e : Expr} {σ : Subst}
    (h : v.assignment e = .ok σ) : σ.Sorted ∧ ∀ x, σ.find? x = v.replaces e x := by
  have hs : (SortedMap.empty.insert v.name e).Sorted :=
    SortedMap.sorted_insert SortedMap.sorted_empty _ _
  unfold assignment expectType require at h
  by_cases ht : v.ty = e.ty
  · simp only [ht, decide_true, if_true, bind, Except.bind] at h
    cases hl : v.length? with
    | none =>
        simp only [hl, pure, Except.pure, Except.ok.injEq] at h
        subst h
        refine ⟨hs, fun x => ?_⟩
        rw [SortedMap.find?_insert, replaces, hl, SortedMap.find?_empty]
    | some l =>
        cases hn : e.arrayLength? with
        | none => simp [hl, hn, getOr] at h
        | some n =>
            simp only [hl, hn, getOr, pure, Except.pure, Except.ok.injEq] at h
            subst h
            refine ⟨SortedMap.sorted_insert hs _ _, fun x => ?_⟩
            rw [SortedMap.find?_insert, SortedMap.find?_insert, replaces, hl, hn,
              SortedMap.find?_empty]
  · simp [ht, bind, Except.bind] at h

/-- An expression that fits can be assigned. -/
theorem Variable.Fits.exists_assignment {v : Variable} {e : Expr} (h : v.Fits e) :
    ∃ σ, v.assignment e = .ok σ := by
  unfold assignment expectType require
  simp only [h.ty, decide_true, if_true, bind, Except.bind]
  cases hl : v.length? with
  | none => exact ⟨_, rfl⟩
  | some l =>
      obtain ⟨n, hn⟩ := h.exists_length hl
      simp only [hn, getOr]
      exact ⟨_, rfl⟩

/-- The substitution of a list of assignments makes the replacements of the list. Names that the
list does not replace keep what they had in `σ`. -/
theorem Subst.find?_assignMany {pairs : List (Variable × Expr)} {σ τ : Subst}
    (h : σ.assignMany pairs = .ok τ) (x : String) :
    τ.find? x = (replacement pairs x).or (σ.find? x) := by
  induction pairs generalizing σ with
  | nil =>
      cases h
      simp [replacement]
  | cons q rest ih =>
      obtain ⟨v, e⟩ := q
      rw [Subst.assignMany] at h
      cases hτ : v.assignment e with
      | error err => simp [hτ, bind, Except.bind] at h
      | ok τ₁ =>
          simp only [hτ, bind, Except.bind] at h
          obtain ⟨hsorted, hfind⟩ := Variable.assignment_ok hτ
          rw [ih h, SortedMap.find?_union σ hsorted, hfind, replacement, Option.or_assoc]

/-- Binding arguments to parameters is a list of assignments. -/
theorem Function.find?_of_bind {g : Function} {args : List Expr} {σ : Subst}
    (h : g.bind args = .ok σ) : σ.find? = replacement (g.parameters.zip args) := by
  obtain ⟨-, h⟩ := seq_eq_ok_iff.1 h
  funext x
  rw [Subst.find?_assignMany h, SortedMap.find?_empty, Option.or_none]

theorem Variable.exists_length_of_assignment {v l : Variable} {e : Expr} {σ : Subst}
    (h : v.assignment e = .ok σ) (hl : v.length? = some l) : ∃ n, e.arrayLength? = some n := by
  unfold assignment at h
  obtain ⟨-, h⟩ := seq_eq_ok_iff.1 h
  rw [hl] at h
  obtain ⟨n, hn, -⟩ := bind_eq_ok_iff.1 h
  exact ⟨n, getOr_eq_ok_iff.1 hn⟩

theorem Subst.assignment_of_assignMany {pairs : List (Variable × Expr)} {σ τ : Subst}
    (h : σ.assignMany pairs = .ok τ) {q : Variable × Expr} (hq : q ∈ pairs) :
    ∃ ρ, q.1.assignment q.2 = .ok ρ := by
  induction pairs generalizing σ with
  | nil => cases hq
  | cons r rest ih =>
      rw [Subst.assignMany] at h
      obtain ⟨ρ, hρ, h⟩ := bind_eq_ok_iff.1 h
      rcases List.mem_cons.1 hq with rfl | hq
      · exact ⟨ρ, hρ⟩
      · exact ih h hq

/-- Expressions that fit can be assigned one after the other. -/
theorem Subst.exists_assignMany {pairs : List (Variable × Expr)}
    (h : ∀ q ∈ pairs, q.1.Fits q.2) (σ : Subst) : ∃ τ, σ.assignMany pairs = .ok τ := by
  induction pairs generalizing σ with
  | nil => exact ⟨σ, rfl⟩
  | cons q rest ih =>
      obtain ⟨v, e⟩ := q
      obtain ⟨hq, hrest⟩ := List.forall_mem_cons.1 h
      obtain ⟨τ, hτ⟩ := Variable.Fits.exists_assignment hq
      rw [Subst.assignMany]
      simp only [hτ, bind, Except.bind]
      exact ih hrest _

/-- The assignments of the second list count where both replace a name. -/
theorem replacement_append (pairs rest : List (Variable × Expr)) (x : String) :
    replacement (pairs ++ rest) x = (replacement rest x).or (replacement pairs x) := by
  induction pairs with
  | nil => simp [replacement]
  | cons q pairs ih =>
      obtain ⟨v, e⟩ := q
      rw [List.cons_append, replacement, replacement, ih, Option.or_assoc]

/-- A replacement comes from one of the assignments. -/
theorem exists_of_replacement {pairs : List (Variable × Expr)} {x : String} {r : Expr}
    (h : replacement pairs x = some r) : ∃ q ∈ pairs, q.1.replaces q.2 x = some r := by
  induction pairs with
  | nil => cases h
  | cons q rest ih =>
      obtain ⟨v, e⟩ := q
      rw [replacement] at h
      rcases Option.or_eq_some_iff.1 h with h | ⟨-, h⟩
      · obtain ⟨q, hq, hr⟩ := ih h
        exact ⟨q, List.mem_cons_of_mem _ hq, hr⟩
      · exact ⟨_, List.mem_cons_self, h⟩

/-- An assignment replaces the variable by the expression and its length by the
expression's length. -/
theorem Variable.replaces_eq_some {v : Variable} {e : Expr} {x : String} {r : Expr}
    (h : v.replaces e x = some r) :
    (x = v.name ∧ r = e) ∨ ∃ l, v.length? = some l ∧ x = l.name ∧ e.arrayLength? = some r := by
  unfold replaces at h
  cases hl : v.length? with
  | none =>
      simp only [hl] at h
      split at h
      · next hx => exact Or.inl ⟨hx, (Option.some.inj h).symm⟩
      · cases h
  | some l =>
      simp only [hl] at h
      split at h
      · next hx => exact Or.inr ⟨l, rfl, hx, h⟩
      · split at h
        · next hx => exact Or.inl ⟨hx, (Option.some.inj h).symm⟩
        · cases h

theorem Variable.Fits.isSome_replaces {v w : Variable} {e : Expr} (h : v.Fits e)
    (hw : w ∈ v.withLength) : (v.replaces e w.name).isSome := by
  unfold replaces
  rcases mem_withLength.1 hw with rfl | hl
  · cases hl : w.length? with
    | none => simp
    | some l =>
        obtain ⟨n, hn⟩ := h.exists_length hl
        by_cases hx : w.name = l.name <;> simp [hx, hn]
  · obtain ⟨n, hn⟩ := h.exists_length hl
    simp [hl, hn]

/-- Whatever is assigned is replaced, and its length with it. -/
theorem isSome_replacement {pairs : List (Variable × Expr)} {q : Variable × Expr} (hq : q ∈ pairs)
    (hfits : q.1.Fits q.2) {w : Variable} (hw : w ∈ q.1.withLength) :
    (replacement pairs w.name).isSome := by
  induction pairs with
  | nil => cases hq
  | cons q' rest ih =>
      rw [replacement, Option.isSome_or, Bool.or_eq_true]
      rcases List.mem_cons.1 hq with rfl | hq
      · exact Or.inr (hfits.isSome_replaces hw)
      · exact Or.inl (ih hq)

/-! ## Vocabularies

Where a name stands for one variable, an array and its length are replaced together or not at all.
From that follow the conditions under which a substitution may be carried out. -/

/-- A set of variables that a list of assignments and a formula may share. Inside of it names are
enough to tell variables apart, which is what substitution by name relies on. -/
structure Vocabulary (V : Variable → Prop) : Prop where
  /-- A name stands for one variable. -/
  unique : ∀ {v w}, V v → V w → v.name = w.name → v = w
  /-- The lengths of arrays belong to it. -/
  closed : ∀ {v l}, V v → v.length? = some l → V l
  /-- The variables of array type have a length. -/
  kinds : ∀ {v}, V v → v.ty.isArray → v.length?.isSome
  /-- No two arrays share a length. -/
  own : ∀ {v w l}, V v → V w → v.length? = some l → w.length? = some l → v = w

/-- The expression `e` takes the place of `v` within a vocabulary. This is what substitution alone
needs; types play no part in it. -/
structure TakesPlace (V : Variable → Prop) (v : Variable) (e : Expr) : Prop where
  mem : V v
  /-- An array gets a length. -/
  length : ∀ {l}, v.length? = some l → ∃ n, e.arrayLength? = some n
  /-- The variable is not the length of an array. -/
  noLength : ∀ {w l}, V w → w.length? = some l → v.name ≠ l.name

/-- The assignment of `e` to `v` within a vocabulary: the expression takes the place of the
variable, and its type is that of the variable. -/
structure Assigns (V : Variable → Prop) (v : Variable) (e : Expr) : Prop
    extends TakesPlace V v e where
  /-- The assignment can be made, which gives an array a length. -/
  fits : v.Fits e
  length := fits.exists_length

namespace Vocabulary

variable {V : Variable → Prop}

theorem name_ne_length (hV : Vocabulary V) {v l : Variable} (hv : V v)
    (hl : v.length? = some l) : v.name ≠ l.name := by
  intro he
  have hvl := hV.unique hv (hV.closed hv hl) he
  rw [hvl, Variable.length?_of_length? hl] at hl
  cases hl

theorem exists_of_replaces (hV : Vocabulary V) {v : Variable} {e r : Expr} (ha : Assigns V v e)
    {x : String} (hr : v.replaces e x = some r) : ∃ w, V w ∧ w.name = x := by
  rcases Variable.replaces_eq_some hr with ⟨hx, -⟩ | ⟨l, hl, hx, -⟩
  · exact ⟨v, ha.mem, hx.symm⟩
  · exact ⟨l, hV.closed ha.mem hl, hx.symm⟩

/-- An assignment replaces a variable of the vocabulary by an expression of its type. The name
alone settles which variable is meant. -/
theorem ty_of_replaces (hV : Vocabulary V) {v w : Variable} {e r : Expr} (ha : Assigns V v e)
    (hw : V w) (hr : v.replaces e w.name = some r) : r.ty = w.ty := by
  rcases Variable.replaces_eq_some hr with ⟨hx, rfl⟩ | ⟨l, hl, hx, hn⟩
  · rw [hV.unique hw ha.mem hx, ha.fits.ty]
  · rw [hV.unique hw (hV.closed ha.mem hl) hx, ha.fits.lengthTy r hn, Variable.ty_of_length? hl]

/-- An assignment replaces an array with its length or neither of them. If it is to another
variable, this cannot be the length, nor an array with the same length. -/
theorem replaces_length (hV : Vocabulary V) {v w l : Variable} {e : Expr} (ha : TakesPlace V v e)
    (hw : V w) (hl : w.length? = some l) :
    (v.replaces e w.name = none ∧ v.replaces e l.name = none) ∨
      ∃ n, v.replaces e w.name = some e ∧ v.replaces e l.name = some n ∧
        e.arrayLength? = some n := by
  have hne := hV.name_ne_length hw hl
  by_cases hvw : v = w
  · subst hvw
    obtain ⟨n, hn⟩ := ha.length hl
    exact Or.inr ⟨n, by simp [Variable.replaces, hl, hne], by simp [Variable.replaces, hl, hn], hn⟩
  · refine Or.inl ⟨Option.eq_none_iff_forall_not_mem.2 fun r hr => ?_,
      Option.eq_none_iff_forall_not_mem.2 fun r hr => ?_⟩
    · rcases Variable.replaces_eq_some hr with ⟨hx, -⟩ | ⟨k, hk, hx, -⟩
      · exact hvw (hV.unique ha.mem hw hx.symm)
      · -- `w` would be a length, but it has one
        rw [hV.unique hw (hV.closed ha.mem hk) hx, Variable.length?_of_length? hk] at hl
        cases hl
    · rcases Variable.replaces_eq_some hr with ⟨hx, -⟩ | ⟨k, hk, hx, -⟩
      · exact ha.noLength hw hl hx.symm
      · have hlk := hV.unique (hV.closed hw hl) (hV.closed ha.mem hk) hx
        exact hvw (hV.own ha.mem hw hk (hlk ▸ hl))

variable {pairs : List (Variable × Expr)}

/-- Replacements have the types of what they replace. -/
theorem ty_of_replacement (hV : Vocabulary V) (hp : ∀ q ∈ pairs, Assigns V q.1 q.2) {w : Variable}
    {r : Expr} (hw : V w) (hr : replacement pairs w.name = some r) : r.ty = w.ty := by
  obtain ⟨q, hq, hrq⟩ := exists_of_replacement hr
  exact hV.ty_of_replaces (hp q hq) hw hrq

/-- A list of assignments replaces an array with its length or neither of them. -/
theorem replacement_length (hV : Vocabulary V) (hp : ∀ q ∈ pairs, TakesPlace V q.1 q.2)
    {w l : Variable} (hw : V w) (hl : w.length? = some l) :
    (replacement pairs w.name = none ∧ replacement pairs l.name = none) ∨
      ∃ e n, replacement pairs w.name = some e ∧ replacement pairs l.name = some n ∧
        e.arrayLength? = some n := by
  induction pairs with
  | nil => exact Or.inl ⟨rfl, rfl⟩
  | cons q rest ih =>
      obtain ⟨v, e⟩ := q
      obtain ⟨hq, hrest⟩ := List.forall_mem_cons.1 hp
      simp only [replacement]
      -- a later assignment to the array counts, and it sets the length as well
      rcases ih hrest with ⟨hn, hln⟩ | ⟨e', n, he, hn, ha⟩
      · rw [hn, hln, Option.none_or, Option.none_or]
        exact (hV.replaces_length hq hw hl).imp_right fun ⟨n, h⟩ => ⟨e, n, h⟩
      · exact Or.inr ⟨e', n, by simp [he], by simp [hn], ha⟩

/-- What takes the place of an array has what takes the place of its length for a length.
Variables that are not replaced stand for themselves. -/
theorem arrayLength?_replacement (hV : Vocabulary V) (hp : ∀ q ∈ pairs, TakesPlace V q.1 q.2)
    {w l : Variable} (hw : V w) (hl : w.length? = some l) :
    ((replacement pairs w.name).getD (.var w)).arrayLength? =
      some ((replacement pairs l.name).getD (.var l)) := by
  rcases hV.replacement_length hp hw hl with ⟨hn, hln⟩ | ⟨d, n, hd, hn, hdn⟩
  · rw [hn, hln, Option.getD_none, Option.getD_none, Expr.arrayLength?, hl, Option.map_some]
  · rw [hd, hn, Option.getD_some, Option.getD_some, hdn]

/-- The substitution of a list of assignments within a vocabulary may be carried out in a
formula over the vocabulary, if no quantifier gets in the way. -/
theorem admits (hV : Vocabulary V) (hp : ∀ q ∈ pairs, Assigns V q.1 q.2) {e : Expr}
    (he : ∀ v ∈ e.reads [], V v) (hk : ∀ k ∈ e.binders, ∀ v, V v → v.name ≠ k)
    (ha : ∀ k ∈ e.binders, ∀ x r, replacement pairs x = some r → k ∉ r.cellNames) :
    e.Admits (replacement pairs) [] where
  types v hv w hw r hr := by
    refine hV.ty_of_replacement hp ?_ hr
    rcases Variable.mem_withLength.1 hw with rfl | hl
    · exact he w hv
    · exact hV.closed (he v hv) hl
  lengths v hv harr := by
    obtain ⟨l, hl⟩ := Option.isSome_iff_exists.1 (hV.kinds (he v hv) harr)
    rw [hl, Option.map_some]
    exact hV.arrayLength?_replacement (fun q hq => (hp q hq).toTakesPlace) (he v hv) hl
  keys k hkb := by
    refine Option.eq_none_iff_forall_not_mem.2 fun r hr => ?_
    obtain ⟨q, hq, hrq⟩ := exists_of_replacement hr
    obtain ⟨w, hw, hwk⟩ := hV.exists_of_replaces (hp q hq) hrq
    exact hk k hkb w hw hwk
  apart := ha

end Vocabulary

/-! ## The two kinds of assignment agree

The state in which a formula is evaluated after the substitution is the state that the assignments
lead to. Both are compared cell by cell. -/

/-- Reading after an assignment: the cell of a replaced name holds the replacement's value. Only
the cell of the right type is set, and the name may have others. -/
theorem Vocabulary.read_assign {V : Variable → Prop} (hV : Vocabulary V) {M : Meaning}
    {v : Variable} {e : Expr} (ha : Assigns V v e) (s t : State M) (x : String) (ty : Ty) :
    (t.assign v (e.item M s)).read x ty =
      match v.replaces e x with
      | some r => if r.ty = ty then r.value M s else t.read x ty
      | none => t.read x ty := by
  unfold State.assign Expr.item Variable.replaces
  rw [Expr.lengthValue?_eq]
  cases hl : v.length? with
  | none =>
      simp only [State.read_set, Expr.ty_value]
      by_cases hx : x = v.name
      · simp [hx, eq_comm]
      · simp [hx]
  | some l =>
      have hne := hV.name_ne_length ha.mem hl
      obtain ⟨n, hn⟩ := ha.fits.exists_length hl
      simp only [hn, Option.map_some, State.read_set, Expr.ty_value]
      by_cases hx : x = l.name
      · have hxv : ¬ l.name = v.name := fun h => hne h.symm
        simp [hx, hxv, eq_comm]
      · by_cases hxv : x = v.name
        · simp [hxv, hne, eq_comm]
        · simp [hx, hxv]

/-- Reading after a list of assignments whose items are all taken from the state `s`. It does not
matter that they are put into the state one by one, since none is evaluated on the way. -/
theorem Vocabulary.read_assignAll {V : Variable → Prop} (hV : Vocabulary V) {M : Meaning}
    {pairs : List (Variable × Expr)} (hp : ∀ q ∈ pairs, Assigns V q.1 q.2) (s t : State M)
    (x : String) (ty : Ty) :
    (t.assignAll (pairs.map fun q => (q.1, q.2.item M s))).read x ty =
      match replacement pairs x with
      | some r => if r.ty = ty then r.value M s else t.read x ty
      | none => t.read x ty := by
  induction pairs generalizing t with
  | nil => rfl
  | cons q rest ih =>
      obtain ⟨v, e⟩ := q
      obtain ⟨hq, hrest⟩ := List.forall_mem_cons.1 hp
      rw [List.map_cons, State.assignAll_cons, ih hrest, hV.read_assign hq, replacement]
      cases hr : replacement rest x with
      | none => rw [Option.none_or]
      | some r =>
          rw [Option.some_or]
          dsimp only
          split
          · rfl
          · next hty =>
              -- an earlier replacement of the same name is of the same type
              split
              · next r' hr' =>
                  obtain ⟨w, hw, rfl⟩ := hV.exists_of_replaces hq hr'
                  rw [if_neg]
                  rwa [hV.ty_of_replaces hq hw hr', ← hV.ty_of_replacement hrest hw hr]
              · rfl

/-- The substitution of a list of assignments gives the state after them. All expressions are
evaluated in the state before, as the arguments of a call are. -/
theorem Vocabulary.under_replacement {V : Variable → Prop} (hV : Vocabulary V) {M : Meaning}
    {pairs : List (Variable × Expr)} (hp : ∀ q ∈ pairs, Assigns V q.1 q.2) (s : State M) :
    s.under (replacement pairs) = s.assignAll (pairs.map fun q => (q.1, q.2.item M s)) := by
  ext x ty
  rw [hV.read_assignAll hp]
  rfl

end Pathwise
