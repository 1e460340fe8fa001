import Pathwise.Proofs.Exposed
import Pathwise.Proofs.FreeNames

/-!
# Pathwise.Proofs.FreeVariables

The names in the table of free variables.

The walk that fills the table puts two kinds of names into it: those of the exposed variables
(`Expr.freeNames`), and those that the lengths of arrays depend on where a predicate is applied to
them (`Expr.passedNames`). Lengths are read on their own, so that a name of the second kind is in
the table even if a quantifier around the application binds it. `Expr.hasFree_iff` says that there
are no others. Hence substitution acts on free variables only (`Expr.hasFree_of_freeNames`).

The proof has the shape of the walk. `SortedMap.Adds` says exactly which keys a step adds, and
composes; `Expr.Collects` is the condition on a name under which the walk through an expression
adds it. The induction (`Expr.adds_collectFree`) is on the expression and its length together.
-/

namespace Pathwise

/-! ## Keys that a walk adds

`SortedMap.Extends` bounds what a walk may add. Here the keys are counted exactly, as a predicate
on names, and predicates of consecutive steps are joined by disjunction. -/

/-- The keys of the table `m'` are those of `m` and the names that `P` holds of. Nothing is said
about the types that the keys have. -/
def SortedMap.Adds {α : Type} (P : String → Prop) (m m' : SortedMap String α) : Prop :=
  ∀ x, (m'.find? x).isSome ↔ (m.find? x).isSome ∨ P x

namespace SortedMap.Adds

variable {α : Type} {P Q : String → Prop} {m m₁ m' n : SortedMap String α}

theorem refl (hP : ∀ x, ¬ P x) (m : SortedMap String α) : Adds P m m := fun x => by simp [hP x]

theorem trans (h : Adds P m m₁) (h' : Adds Q m₁ m') : Adds (fun x => P x ∨ Q x) m m' := by
  intro x
  rw [h' x, h x, or_assoc]

theorem congr (h : Adds P m m') (hPQ : ∀ x, P x ↔ Q x) : Adds Q m m' := by
  intro x
  rw [h x, hPQ x]

theorem insert (k : String) (a : α) (m : SortedMap String α) : Adds (· = k) m (m.insert k a) := by
  intro x
  rw [find?_insert]
  by_cases hx : x = k <;> simp [hx]

theorem union (h : Adds P empty n) (hs : n.Sorted) (m : SortedMap String α) :
    Adds P m (m.union n) := by
  intro x
  rw [find?_union m hs, Option.isSome_or, Bool.or_eq_true, h x, find?_empty]
  simp [or_comm]

end SortedMap.Adds

namespace Expr

open SortedMap

/-! ## Names of both kinds

Names in sight, and names that are there for a length. The second kind is collected over all
subexpressions, since what is bound around an application makes no difference to the lengths it
passes. -/

/-- The names of the exposed variables. -/
def freeNames (e : Expr) : List String := (e.exposed []).map Variable.name

/-- The names that the length depends on which goes along with an argument. Only arguments of
array types bring one. -/
def lengthNames (e : Expr) : List String :=
  if e.ty.isArray then (e.arrayLength?.map freeNames).getD [] else []

/-- The names for the lengths that the application at the root of an expression passes along. -/
def rootPassed : Expr → List String
  | app _ args => args.flatMap lengthNames
  | _ => []

/-- The names for all lengths that are passed along in an expression, bound or not. The walk looks
for lengths of arguments as if no quantifier were around. -/
def passedNames (e : Expr) : List String := e.visit.flatMap rootPassed

theorem mem_freeNames {e : Expr} {x : String} :
    x ∈ e.freeNames ↔ ∃ v ∈ e.exposed [], v.name = x := List.mem_map

theorem mem_freeNames_plain {e : Expr} (h : e.plain) {x : String} :
    x ∈ e.freeNames ↔ ∃ c ∈ e.children, x ∈ c.freeNames := by
  simp only [mem_freeNames, mem_exposed_plain h]
  constructor
  · rintro ⟨v, ⟨c, hc, hv⟩, hx⟩
    exact ⟨c, hc, v, hv, hx⟩
  · rintro ⟨c, hc, v, hv, hx⟩
    exact ⟨v, ⟨c, hc, hv⟩, hx⟩

/-- A quantifier takes its name out of the free names of its body. -/
theorem mem_freeNames_quant {q : Quantifier} {v : Variable} {body : Expr} {x : String} :
    x ∈ (quant q v body).freeNames ↔ x ∈ body.freeNames ∧ x ≠ v.name := by
  have hbody : ∀ u, u ∈ body.exposed [v.name] ↔ u ∈ body.exposed [] ∧ u.name ∉ [v.name] :=
    fun u => mem_exposed_iff
  simp only [mem_freeNames, exposed, hbody, List.mem_singleton]
  constructor
  · rintro ⟨u, ⟨hu, hne⟩, rfl⟩
    exact ⟨⟨u, hu, rfl⟩, hne⟩
  · rintro ⟨⟨u, hu, rfl⟩, hne⟩
    exact ⟨u, ⟨hu, hne⟩, rfl⟩

@[simp] theorem freeNames_var (v : Variable) : (var v).freeNames = [v.name] := by
  simp [freeNames, exposed]

/-- The names for a length are the free names of the length, if the argument is an array that has
one. -/
theorem mem_lengthNames {e : Expr} {x : String} :
    x ∈ e.lengthNames ↔ e.ty.isArray ∧ ∃ n, e.arrayLength? = some n ∧ x ∈ n.freeNames := by
  unfold lengthNames
  split
  · next ha => cases e.arrayLength? <;> simp [ha]
  · next ha => simp [ha]

theorem mem_lengthNames_var {v l : Variable} (hk : v.isArray = v.ty.isArray)
    (hl : v.length? = some l) : l.name ∈ (var v).lengthNames := by
  have harray : v.ty.isArray := by
    rw [← hk, Variable.isArray_iff_length?, hl]
    rfl
  exact mem_lengthNames.2 ⟨harray, var l, by simp [arrayLength?, hl], by simp⟩

theorem passedNames_eq (e : Expr) :
    e.passedNames = e.rootPassed ++ e.children.flatMap passedNames := by
  rw [passedNames, visit_eq, List.flatMap_cons, List.flatMap_assoc]
  rfl

/-- Names for lengths are those at the root and those of the parts. -/
theorem mem_passedNames {e : Expr} {x : String} :
    x ∈ e.passedNames ↔ x ∈ e.rootPassed ∨ ∃ c ∈ e.children, x ∈ c.passedNames := by
  rw [passedNames_eq, List.mem_append, List.mem_flatMap]

@[simp] theorem passedNames_var (v : Variable) : (var v).passedNames = [] := rfl

/-! ## The table

What the walk adds under given bound names, by kind of expression, and from that the keys of the
table of a whole expression. -/

/-- The walk puts a name into the table, where the names in `bound` are bound from outside. These
do not keep the names of passed lengths out. -/
def Collects (bound : List String) (e : Expr) (x : String) : Prop :=
  (x ∈ e.freeNames ∧ x ∉ bound) ∨ x ∈ e.passedNames

theorem Collects.anti {bound bound' : List String} {e : Expr} {x : String}
    (h : e.Collects bound' x) (hb : bound ⊆ bound') : e.Collects bound x :=
  h.imp_left fun hx => ⟨hx.1, fun hmem => hx.2 (hb hmem)⟩

/-- Without a quantifier, names come from the parts, and from the lengths that are passed at the
root. -/
theorem collects_plain {e : Expr} (h : e.plain) {bound : List String} {x : String} :
    e.Collects bound x ↔ x ∈ e.rootPassed ∨ ∃ c ∈ e.children, c.Collects bound x := by
  unfold Collects
  rw [mem_freeNames_plain h, mem_passedNames]
  constructor
  · rintro (⟨⟨c, hc, hx⟩, hb⟩ | hroot | ⟨c, hc, hx⟩)
    · exact Or.inr ⟨c, hc, Or.inl ⟨hx, hb⟩⟩
    · exact Or.inl hroot
    · exact Or.inr ⟨c, hc, Or.inr hx⟩
  · rintro (hroot | ⟨c, hc, ⟨hx, hb⟩ | hx⟩)
    · exact Or.inr (Or.inl hroot)
    · exact Or.inl ⟨⟨c, hc, hx⟩, hb⟩
    · exact Or.inr (Or.inr ⟨c, hc, hx⟩)

/-- A quantifier adds its name to the bound ones. -/
theorem collects_quant {q : Quantifier} {v : Variable} {body : Expr} {bound : List String}
    {x : String} : (quant q v body).Collects bound x ↔ body.Collects (v.name :: bound) x := by
  have hpassed : x ∈ (quant q v body).passedNames ↔ x ∈ body.passedNames := by
    rw [mem_passedNames]
    simp [rootPassed, children]
  unfold Collects
  rw [mem_freeNames_quant, hpassed, List.mem_cons, not_or, and_assoc]

theorem adds_collectFreeList {P : Expr → String → Prop} {bound : List String} {es : List Expr}
    (h : ∀ e ∈ es, ∀ out, Adds (P e) out (collectFree bound out e)) (out : SortedMap String Ty) :
    Adds (fun x => ∃ e ∈ es, P e x) out (collectFreeList bound out es) := by
  induction es generalizing out with
  | nil => exact .refl (by simp) out
  | cons e es ih =>
      obtain ⟨he, hes⟩ := List.forall_mem_cons.1 h
      exact ((he out).trans (ih hes _)).congr fun x => by rw [List.exists_mem_cons_iff]

theorem adds_collectFreeArgs {P Q : Expr → String → Prop} {bound : List String} {es : List Expr}
    (h : ∀ e ∈ es, ∀ out, Adds (P e) out (collectFree bound out e))
    (hl : ∀ e ∈ es, Adds (Q e) empty (collectLength e)) (out : SortedMap String Ty) :
    Adds (fun x => ∃ e ∈ es, P e x ∨ (e.ty.isArray ∧ Q e x)) out
      (collectFreeArgs bound out es) := by
  induction es generalizing out with
  | nil => exact .refl (by simp) out
  | cons e es ih =>
      obtain ⟨he, hes⟩ := List.forall_mem_cons.1 h
      obtain ⟨hle, hles⟩ := List.forall_mem_cons.1 hl
      have hout : Adds (fun x => P e x ∨ (e.ty.isArray ∧ Q e x)) out
          (if e.ty.isArray then (collectFree bound out e).union (collectLength e)
            else collectFree bound out e) := by
        have hsorted := (extends_collectFree e).2.sorted sorted_empty
        by_cases ha : e.ty.isArray
        · rw [if_pos ha]
          exact ((he out).trans (hle.union hsorted _)).congr fun x => by simp [ha]
        · rw [if_neg ha]
          exact (he out).congr fun x => by simp [ha]
      exact (hout.trans (ih hes hles _)).congr fun x => by rw [List.exists_mem_cons_iff]

/-- The walk through an expression that applies nothing goes through its parts in turn. -/
theorem collectFree_eq_list {e : Expr} (h : e.plain) (ha : ∀ p args, e ≠ app p args)
    (bound : List String) (out : SortedMap String Ty) :
    collectFree bound out e = collectFreeList bound out e.children := by
  cases e with
  | var v => cases h
  | quant q v body => cases h
  | app p args => exact absurd rfl (ha p args)
  | _ => simp [collectFree, collectFreeList, children]

/-- What is passed along inside a length is passed along inside the array. -/
theorem passedNames_of_arrayLength? {e n : Expr} (h : e.arrayLength? = some n) :
    n.passedNames ⊆ e.passedNames := by
  intro x hx
  cases e with
  | var v =>
      obtain ⟨l, -, rfl⟩ := Option.map_eq_some_iff.1 h
      cases hx
  | update a i y m =>
      cases h
      exact mem_passedNames.2 (Or.inr ⟨n, by simp [children], hx⟩)
  | _ => cases h

/-- What an argument of a predicate puts into the table, it puts in itself or with its length. The
length is collected with no name bound. -/
theorem collects_argument {e : Expr} {bound : List String} {x : String} :
    (e.Collects bound x ∨ (e.ty.isArray ∧ ∃ n, e.arrayLength? = some n ∧ n.Collects [] x)) ↔
      x ∈ e.lengthNames ∨ e.Collects bound x := by
  rw [mem_lengthNames]
  constructor
  · rintro (hx | ⟨ha, n, hn, ⟨hx, -⟩ | hx⟩)
    · exact Or.inr hx
    · exact Or.inl ⟨ha, n, hn, hx⟩
    · exact Or.inr (Or.inr (passedNames_of_arrayLength? hn hx))
  · rintro (⟨ha, n, hn, hx⟩ | hx)
    · exact Or.inr ⟨ha, n, hn, Or.inl ⟨hx, List.not_mem_nil⟩⟩
    · exact Or.inl hx

/-- The names that the walk puts into the table, and those for the length of an expression. The
two functions call each other, so they are dealt with together. -/
theorem adds_collectFree (e : Expr) :
    (∀ bound out, Adds (e.Collects bound) out (collectFree bound out e)) ∧
      Adds (fun x => ∃ n, e.arrayLength? = some n ∧ n.Collects [] x) empty (collectLength e) := by
  induction e using childInduct with
  | step e ih =>
      constructor
      · intro bound out
        cases e with
        | var v =>
            have hcollects : ∀ x, (var v).Collects bound x ↔ x = v.name ∧ x ∉ bound := by
              intro x
              simp [Collects]
            rw [collectFree]
            split
            · next hv =>
                refine .refl (fun x hx => ?_) out
                obtain ⟨rfl, hb⟩ := (hcollects x).1 hx
                exact hb hv
            · next hv =>
                refine (Adds.insert v.name v.ty out).congr fun x => ?_
                rw [hcollects]
                exact ⟨fun hx => ⟨hx, hx ▸ hv⟩, fun hx => hx.1⟩
        | quant q v body =>
            have hbody := (ih body (by simp [children])).1 (v.name :: bound) out
            exact hbody.congr fun x => collects_quant.symm
        | app p args =>
            have hargs := adds_collectFreeArgs (fun c hc => (ih c hc).1 bound)
              (fun c hc => (ih c hc).2) out
            refine hargs.congr fun x => ?_
            rw [collects_plain rfl, rootPassed, List.mem_flatMap, ← exists_or]
            refine exists_congr fun c => ?_
            rw [collects_argument]
            exact and_or_left
        | _ =>
            -- all other kinds of expressions go through their parts in turn, and pass nothing
            -- along
            rw [collectFree_eq_list rfl (by simp)]
            refine (adds_collectFreeList (fun c hc => (ih c hc).1 bound) out).congr fun x => ?_
            rw [collects_plain rfl]
            simp [rootPassed]
      · cases e with
        | var v =>
            rw [collectLength, arrayLength?]
            cases hl : v.length? with
            | none => exact .refl (by simp) empty
            | some l => exact (Adds.insert l.name l.ty empty).congr fun x => by simp [Collects]
        | update a i y n =>
            have hn := (ih n (by simp [children])).1 [] empty
            exact hn.congr fun x => by simp [arrayLength?]
        | _ => exact .refl (by simp [arrayLength?]) empty

/-- The free variables are the exposed variables and the names for lengths that are passed along.
The second part is where the walk finds more than the names that are free. -/
theorem hasFree_iff {e : Expr} {x : String} :
    e.hasFree x = true ↔ x ∈ e.freeNames ∨ x ∈ e.passedNames := by
  have htable := (adds_collectFree e).1 [] empty x
  rw [find?_empty] at htable
  unfold hasFree freeVariables contains
  rw [htable]
  simp [Collects]

/-- Exposed variables are in the table. So a substitution never touches a name that the table does
not have. -/
theorem hasFree_of_freeNames {e : Expr} {x : String} (h : x ∈ e.freeNames) : e.hasFree x = true :=
  hasFree_iff.2 (Or.inl h)

/-- A name that is not in the table is of neither kind. -/
theorem not_mem_of_hasFree {e : Expr} {x : String} (h : e.hasFree x = false) :
    x ∉ e.freeNames ∧ x ∉ e.passedNames := by
  rw [← not_or, ← hasFree_iff, h]
  exact Bool.false_ne_true

theorem hasFree_iff_mem_keys {e : Expr} {x : String} :
    e.hasFree x = true ↔ x ∈ e.freeVariables.keys := by
  unfold hasFree SortedMap.contains
  rw [Option.isSome_iff_exists]
  constructor
  · rintro ⟨t, ht⟩
    exact List.mem_map.2 ⟨(x, t), SortedMap.mem_of_lookup ht, rfl⟩
  · intro hx
    obtain ⟨entry, hentry, rfl⟩ := List.mem_map.1 hx
    exact ⟨entry.2, (sorted_freeVariables e).mem_entries_iff.1 hentry⟩

end Expr

end Pathwise
