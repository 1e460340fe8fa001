import Pathwise.Proofs.Meaning

/-!
# Pathwise.Proofs.Reads

Which variables an expression mentions, and which cells of a state its value depends on.

* `Expr.mentions` are all variables that an expression mentions, bound ones and lengths included.
* `Expr.reads` are the variables that stand for a cell of the state. A quantifier binds the
  integer of its name, so an occurrence counts as bound if it is of that type.
* `Expr.binders` are the names that quantifiers bind.

What an expression stands for in a state is its value and, if it is an array, its length
(`Expr.SameItem`).

Most facts here are proved by an induction that does not look at what kind of expression there is.
`Expr.childInduct` has one case, for an expression and its parts. `Expr.plainInduct` has three:
variables and quantifiers, where names matter, and everything else (`Expr.plain`). A new kind of
expression would add nothing to these proofs.

The last section has a few variables, for the examples of this and later modules.
-/

namespace Pathwise

/-- A variable, and its length if it is an array. -/
def Variable.withLength (v : Variable) : List Variable := v :: v.length?.toList

@[simp] theorem Variable.mem_withLength {v w : Variable} :
    w ∈ v.withLength ↔ w = v ∨ v.length? = some w := by
  simp [withLength]

theorem Variable.self_mem_withLength (v : Variable) : v ∈ v.withLength := by simp

/-- The variables with a length are the arrays. -/
theorem Variable.isArray_iff_length? (v : Variable) : v.isArray = v.length?.isSome := by
  unfold isArray length?
  cases v.kind <;> rfl

theorem Variable.length?_eq_some {v l : Variable} (h : v.length? = some l) :
    v.kind = .array l.name ∧ l = .scalar l.name .int := by
  unfold length? at h
  split at h
  · next name hk =>
      cases h
      exact ⟨hk, rfl⟩
  · cases h

theorem Variable.length?_of_length? {v l : Variable} (h : v.length? = some l) :
    l.length? = none := by
  rw [(length?_eq_some h).2]
  rfl

theorem Variable.ty_of_length? {v l : Variable} (h : v.length? = some l) : l.ty = .int := by
  rw [(length?_eq_some h).2]
  rfl

/-- Of a variable and its length, only the variable has a length. Lengths are scalars. -/
theorem Variable.eq_of_mem_withLength {v w l : Variable} (hw : w ∈ v.withLength)
    (hl : w.length? = some l) : w = v ∧ l ∈ v.withLength := by
  rcases mem_withLength.1 hw with rfl | hvw
  · exact ⟨rfl, by simp [hl]⟩
  · rw [length?_of_length? hvw] at hl
    cases hl

/-- What goes with a length goes with its array. -/
theorem Variable.withLength_subset {v w : Variable} (hw : w ∈ v.withLength) :
    w.withLength ⊆ v.withLength := by
  intro u hu
  rcases mem_withLength.1 hu with rfl | hl
  · exact hw
  · exact (eq_of_mem_withLength hw hl).2

namespace Expr

/-! ## The variables of an expression

Mentioned variables and binders are collected over all subexpressions, so that they are read off
the root and the parts (`mentions_eq`, `binders_eq`). Reading is a recursion of its own, since it
depends on what is bound around an occurrence. -/

/-- The variables that the node at the root of an expression mentions. A quantifier mentions the
variable that it binds, used or not. -/
def rootMentions : Expr → List Variable
  | var v => v.withLength
  | quant _ v _ => v.withLength
  | _ => []

/-- All variables of an expression, bound ones and the lengths of arrays included, whether they
are used or not. -/
def mentions (e : Expr) : List Variable := e.visit.flatMap rootMentions

/-- The name that the quantifier at the root of an expression binds. -/
def rootBinder? : Expr → Option String
  | quant _ v _ => some v.name
  | _ => none

/-- The names that the quantifiers in an expression bind. -/
def binders (e : Expr) : List String := e.visit.filterMap rootBinder?

mutual

/-- The variables that stand for cells of the state, where the integers of the names in
`bound` are bound from outside. -/
def reads (bound : List String) : Expr → List Variable
  | var v => if v.name ∈ bound ∧ v.ty = .int then [] else [v]
  | int _ | float _ | bool _ => []
  | unary _ e => reads bound e
  | binary _ l r => reads bound l ++ reads bound r
  | quant _ v body => reads (v.name :: bound) body
  | read array index => reads bound array ++ reads bound index
  | update array index value length =>
    reads bound array ++ reads bound index ++ reads bound value ++ reads bound length
  | call _ args _ => readsList bound args
  | app _ args => readsList bound args

def readsList (bound : List String) : List Expr → List Variable
  | [] => []
  | e :: es => reads bound e ++ readsList bound es

end

/-- Induction over an expression's parts, whatever kind of expression it is. For statements whose
proof goes by what the root contributes. -/
@[elab_as_elim]
theorem childInduct {motive : Expr → Prop}
    (step : ∀ e, (∀ c ∈ e.children, motive c) → motive e) (e : Expr) : motive e := by
  induction e with
  | call f args t ih => exact step _ ih
  | app p args ih => exact step _ ih
  | _ => exact step _ (by simp_all [children])

theorem mem_readsList {bound : List String} {es : List Expr} {v : Variable} :
    v ∈ readsList bound es ↔ ∃ e ∈ es, v ∈ e.reads bound := by
  induction es with
  | nil => simp [readsList]
  | cons e es ih => simp [readsList, ih]

/-- The subexpressions are the expression and those of its parts. -/
theorem visit_eq (e : Expr) : e.visit = e :: e.children.flatMap visit := by
  cases e <;> simp [visit, children, visitList_eq_flatMap]

theorem self_mem_visit (e : Expr) : e ∈ e.visit := by
  rw [visit_eq]
  exact List.mem_cons_self

theorem visit_subset_of_child {c e : Expr} (hc : c ∈ e.children) : c.visit ⊆ e.visit := by
  intro d hd
  rw [visit_eq e]
  exact List.mem_cons_of_mem e (List.mem_flatMap.2 ⟨c, hc, hd⟩)

/-- The variables of an expression are those at its root and those of its parts. -/
theorem mentions_eq (e : Expr) :
    e.mentions = e.rootMentions ++ e.children.flatMap mentions := by
  rw [mentions, visit_eq, List.flatMap_cons, List.flatMap_assoc]
  rfl

@[simp] theorem mentions_var (v : Variable) : (var v).mentions = v.withLength := by
  rw [mentions_eq]
  simp [rootMentions, children]

theorem binders_eq (e : Expr) :
    e.binders = e.rootBinder?.toList ++ e.children.flatMap binders := by
  rw [binders, visit_eq, List.filterMap_cons, List.filterMap_flatMap]
  cases e.rootBinder? <;> rfl

theorem mentions_subset_of_child {c e : Expr} (hc : c ∈ e.children) :
    c.mentions ⊆ e.mentions := by
  intro v hv
  rw [mentions_eq e]
  exact List.mem_append_right _ (List.mem_flatMap.2 ⟨c, hc, hv⟩)

theorem visit_subset_of_mem_visit {d e : Expr} (hd : d ∈ e.visit) : d.visit ⊆ e.visit := by
  induction e using childInduct with
  | step e ih =>
      rw [visit_eq] at hd
      rcases List.mem_cons.1 hd with rfl | hd
      · exact List.Subset.refl _
      · obtain ⟨c, hc, hdc⟩ := List.mem_flatMap.1 hd
        exact List.Subset.trans (ih c hc hdc) (visit_subset_of_child hc)

theorem mentions_subset_of_mem_visit {d e : Expr} (hd : d ∈ e.visit) : d.mentions ⊆ e.mentions := by
  intro v hv
  obtain ⟨c, hc, hv⟩ := List.mem_flatMap.1 hv
  exact List.mem_flatMap.2 ⟨c, visit_subset_of_mem_visit hd hc, hv⟩

theorem binders_subset_of_child {c e : Expr} (hc : c ∈ e.children) : c.binders ⊆ e.binders := by
  intro x hx
  rw [binders_eq e]
  exact List.mem_append_right _ (List.mem_flatMap.2 ⟨c, hc, hx⟩)

/-- Whether an expression is neither a variable nor a quantifier. Names play no part in
such an expression but for those of its parts. -/
def plain : Expr → Bool
  | var _ => false
  | quant _ _ _ => false
  | _ => true

/-- Induction over expressions where only variables and quantifiers are told apart. All other
expressions pass on what is true of their parts. -/
@[elab_as_elim]
theorem plainInduct {motive : Expr → Prop} (var : ∀ v, motive (.var v))
    (quant : ∀ q v body, motive body → motive (.quant q v body))
    (plain : ∀ e, e.plain → (∀ c ∈ e.children, motive c) → motive e) (e : Expr) : motive e := by
  induction e using childInduct with
  | step e ih =>
      cases e with
      | var v => exact var v
      | quant q v body => exact quant q v body (ih body (by simp [children]))
      | _ => exact plain _ rfl ih

/-- An expression that is neither a variable nor a quantifier reads what its parts read, under the
same bound names. -/
theorem mem_reads_plain {e : Expr} (h : e.plain) {bound : List String} {v : Variable} :
    v ∈ e.reads bound ↔ ∃ c ∈ e.children, v ∈ c.reads bound := by
  cases e with
  | var v => cases h
  | quant q v body => cases h
  | call f args t => exact mem_readsList
  | app p args => exact mem_readsList
  | _ => simp [reads, children]

theorem mem_binders_plain {e : Expr} (h : e.plain) {x : String} :
    x ∈ e.binders ↔ ∃ c ∈ e.children, x ∈ c.binders := by
  have hroot : e.rootBinder? = none := by
    cases e with
    | quant q v body => cases h
    | _ => rfl
  rw [binders_eq, hroot, Option.toList_none, List.nil_append, List.mem_flatMap]

theorem binders_quant (q : Quantifier) (v : Variable) (body : Expr) :
    (quant q v body).binders = v.name :: body.binders := by
  rw [binders_eq]
  simp [rootBinder?, children]

/-- More names bound from outside leave fewer variables to read. The reverse inclusion fails for
integers of the names that were added. -/
theorem reads_anti {e : Expr} {bound bound' : List String} (h : bound ⊆ bound') :
    e.reads bound' ⊆ e.reads bound := by
  induction e using plainInduct generalizing bound bound' with
  | var v =>
      intro w hw
      rw [reads] at hw ⊢
      split at hw
      · cases hw
      · next hv => rwa [if_neg fun hc => hv ⟨h hc.1, hc.2⟩]
  | quant q v body ih => exact ih (List.cons_subset_cons v.name h)
  | plain e he ih =>
      intro v hv
      obtain ⟨c, hc, hvc⟩ := (mem_reads_plain he).1 hv
      exact (mem_reads_plain he).2 ⟨c, hc, ih c hc h hvc⟩

/-- The variables that an expression reads, with their lengths, are among its variables. Lengths
are mentioned with their array even where only the array occurs. -/
theorem withLength_subset_mentions {e : Expr} {bound : List String} {v : Variable}
    (hv : v ∈ e.reads bound) : v.withLength ⊆ e.mentions := by
  induction e using plainInduct generalizing bound with
  | var u =>
      rw [reads] at hv
      split at hv
      · cases hv
      · intro w hw
        rw [List.mem_singleton.1 hv] at hw
        rw [mentions_eq]
        exact List.mem_append_left _ hw
  | quant q u body ih =>
      exact fun w hw => mentions_subset_of_child (by simp [children]) (ih hv hw)
  | plain e he ih =>
      obtain ⟨c, hc, hvc⟩ := (mem_reads_plain he).1 hv
      exact fun w hw => mentions_subset_of_child hc (ih c hc hvc hw)

/-- The length of an array expression reads what the expression reads, and lengths. For a variable
it is the length of the variable, for an update one of its parts. -/
theorem mem_reads_of_arrayLength? {e r : Expr} (h : e.arrayLength? = some r) {v : Variable}
    (hv : v ∈ r.reads []) : ∃ u ∈ e.reads [], v ∈ u.withLength := by
  cases e with
  | var u =>
      obtain ⟨l, hl, rfl⟩ := Option.map_eq_some_iff.1 h
      have hvl : v = l := by simpa [reads] using hv
      exact ⟨u, by simp [reads], by simp [hvl, hl]⟩
  | update a i x n =>
      cases h
      exact ⟨v, (mem_reads_plain rfl).2 ⟨r, by simp [children], hv⟩, v.self_mem_withLength⟩
  | _ => cases h

theorem binders_of_arrayLength? {e r : Expr} (h : e.arrayLength? = some r) :
    r.binders ⊆ e.binders := by
  cases e with
  | var u =>
      obtain ⟨l, -, rfl⟩ := Option.map_eq_some_iff.1 h
      simp [binders_eq, rootBinder?, children]
  | update a i x n =>
      cases h
      exact binders_subset_of_child (by simp [children])
  | _ => cases h

/-- A name that is bound is the name of a variable that is mentioned. -/
theorem exists_variable_of_binder {e : Expr} {k : String} (hk : k ∈ e.binders) :
    ∃ v ∈ e.mentions, v.name = k := by
  obtain ⟨d, hd, hdk⟩ := List.mem_filterMap.1 hk
  cases d with
  | quant q v body =>
      cases hdk
      exact ⟨v, List.mem_flatMap.2 ⟨_, hd, v.self_mem_withLength⟩, rfl⟩
  | _ => cases hdk

/-! ## What an expression stands for

Predicates are given the lengths of their array arguments, so the value of an array is only half
of what matters about it. The relation between an expression in one state and an expression in
another covers both halves, and is symmetric and transitive. -/

/-- The expression `d` in state `s` stands for the same as `e` in state `t`: they have the
same value, and the same length if they are arrays. -/
structure SameItem (M : Meaning) (d : Expr) (s : State M) (e : Expr) (t : State M) : Prop where
  value : d.value M s = e.value M t
  length : e.ty.isArray → d.lengthValue? M s = e.lengthValue? M t

theorem SameItem.ty {M : Meaning} {d e : Expr} {s t : State M} (h : SameItem M d s e t) :
    d.ty = e.ty := by
  rw [← ty_value M d s, ← ty_value M e t, h.value]

theorem SameItem.symm {M : Meaning} {d e : Expr} {s t : State M} (h : SameItem M d s e t) :
    SameItem M e t d s :=
  ⟨h.value.symm, fun ha => (h.length (h.ty ▸ ha)).symm⟩

theorem SameItem.trans {M : Meaning} {c d e : Expr} {s t u : State M} (h : SameItem M c s d t)
    (h' : SameItem M d t e u) : SameItem M c s e u :=
  ⟨h.value.trans h'.value, fun ha => (h.length (h'.ty ▸ ha)).trans (h'.length ha)⟩

/-- Two expressions that are no arrays stand for the same if their values are equal. -/
theorem SameItem.of_value {M : Meaning} {d e : Expr} {s t : State M}
    (h : d.value M s = e.value M t) (hd : d.arrayLength? = none) (he : e.arrayLength? = none) :
    SameItem M d s e t :=
  ⟨h, fun _ => by rw [lengthValue?_eq, lengthValue?_eq, hd, he]; rfl⟩

/-- Expressions that stand for the same have the same values, item by item. This is how the
arguments of calls and predicates are treated. -/
theorem values_map {M : Meaning} {g : Expr → Expr} {es : List Expr} {s t : State M}
    (h : ∀ e ∈ es, SameItem M (g e) s e t) : values M (es.map g) s = values M es t := by
  induction es with
  | nil => rfl
  | cons e es ih =>
      have he := h e List.mem_cons_self
      have hes := ih fun d hd => h d (List.mem_cons_of_mem _ hd)
      rw [List.map_cons, values, values, he.value, hes]

theorem lengths_map {M : Meaning} {g : Expr → Expr} {es : List Expr} {s t : State M}
    (h : ∀ e ∈ es, SameItem M (g e) s e t) : lengths M (es.map g) s = lengths M es t := by
  induction es with
  | nil => rfl
  | cons e es ih =>
      have he := h e List.mem_cons_self
      have hes := ih fun d hd => h d (List.mem_cons_of_mem _ hd)
      rw [List.map_cons, lengths, lengths, he.ty, hes]
      by_cases ha : e.ty.isArray
      · rw [if_pos ha, if_pos ha, he.length ha]
      · rw [if_neg ha, if_neg ha]

/-- Two states hold the same value of a variable, and of its length. -/
def AgreeOn {M : Meaning} (s t : State M) (v : Variable) : Prop :=
  ∀ w ∈ v.withLength, s.read w.name w.ty = t.read w.name w.ty

/-- States that agree on a variable still do after the same assignment. -/
theorem AgreeOn.set {M : Meaning} {s t : State M} {v : Variable} (h : AgreeOn s t v) (x : String)
    (d : Datum M.Num) : AgreeOn (s.set x d) (t.set x d) v := by
  intro w hw
  rw [State.read_set, State.read_set, h w hw]

theorem AgreeOn.sameItem {M : Meaning} {s t : State M} {v : Variable} (h : AgreeOn s t v) :
    SameItem M (var v) s (var v) t := by
  refine ⟨h v v.self_mem_withLength, fun _ => ?_⟩
  rw [lengthValue?, lengthValue?]
  cases hl : v.length? with
  | none => rfl
  | some l => simp [h l (by simp [hl])]

end Expr

/-! ## Variables to try results on

The examples of the modules on expressions, paths and conditions are written over one small
vocabulary: some integers, some arrays whose lengths are their own, and a variable for
quantifiers. -/

namespace Sample

def i : Variable := .scalar "i" .int
def m : Variable := .scalar "m" .int
def n : Variable := .scalar "n" .int
def r : Variable := .scalar "r" .int
def x : Variable := .scalar "x" .int
def y : Variable := .scalar "y" .int

def a : Variable := .array "a" .int
def b : Variable := .array "b" .int
def c : Variable := .array "c" .int

def k : Variable := .quantified "k"

/-- The length of an array. -/
def length (v : Variable) : Variable := .scalar (Variable.lengthName v.name) .int

/-- The predicate `long(b)` says that `b` has at least twenty elements. -/
def long : Predicate := ⟨"long", 0, [b], .binary .ge (.var (length b)) (.int 20)⟩

end Sample

end Pathwise
