import Pathwise.Proofs.Execution
import Pathwise.Proofs.Fresh
import Pathwise.Proofs.Validation

/-!
# Pathwise.Proofs.Formulas

Formulas that arise on a path of a function.

Such a formula keeps to the vocabulary of the function (`Function.Says`), and it is to be true
whatever values its fresh variables have (`Expr.Assured`). The states that differ only in the
values of fresh variables are the ones that look the same (`Visible`).

`Function.Says` is the invariant of the fold over a path. It bounds the variables that are read
and the names that are bound, and both matter: a substitution is right only if nothing that it
puts into a formula is captured by a quantifier there, and hygiene keeps bound names apart from
all names of the state. Given this, the substitution lemma has no side conditions left
(`Function.holds_replacement`), and the result is a formula of the same kind
(`Function.says_replacement`).

Expressions of the text have no fresh variables, so for them it does not matter which of the
states that look the same is meant. For the others, being assured is what commutes with
assignments (`assured_update`).
-/

namespace Pathwise

variable {M : Meaning}

/-! ## The visible part of a state

Fresh variables exist in formulas only: no statement of a program reads or sets one. A state is
therefore determined by its visible part as far as execution is concerned, and a formula has to be
read for all values of the rest. -/

/-- The states hold the same values but for fresh variables. An execution does not know of fresh
variables, so it cannot tell such states apart. -/
def Visible (s t : State M) : Prop := ∀ x, ¬ Reserved x → ∀ ty, t.read x ty = s.read x ty

/-- A formula is true whatever values the fresh variables have. They stand for the unknown results
of calls, and a condition has to hold for all of them. -/
def Expr.Assured (M : Meaning) (s : State M) (e : Expr) : Prop := ∀ t, Visible s t → e.Holds M t

namespace Visible

variable {s t : State M}

theorem refl (s : State M) : Visible s s := fun _ _ _ => rfl

theorem agreeOn (h : Visible s t) {v : Variable} (hv : ∀ w ∈ v.withLength, ¬ Reserved w.name) :
    Expr.AgreeOn t s v := fun w hw => h w.name (hv w hw) w.ty

/-- The same assignment on both sides keeps states looking the same. -/
theorem assign (h : Visible s t) (v : Variable) (i : Item M) :
    Visible (s.assign v i) (t.assign v i) := fun x hx ty =>
  State.read_assign_congr (h x hx ty) v i

theorem assignAll (h : Visible s t) (items : List (Variable × Item M)) :
    Visible (s.assignAll items) (t.assignAll items) := by
  induction items generalizing s t with
  | nil => exact h
  | cons q rest ih => exact ih (h.assign q.1 q.2)

/-- Assignments to fresh variables cannot be seen. The lengths that go with them are reserved as
well. -/
theorem assignAll_reserved (h : Visible s t) {items : List (Variable × Item M)}
    (hr : ∀ q ∈ items, ∀ w ∈ q.1.withLength, Reserved w.name) : Visible s (t.assignAll items) := by
  intro x hx ty
  have hne : ∀ q ∈ items, ∀ w ∈ q.1.withLength, x ≠ w.name := fun q hq w hw he =>
    hx (he ▸ hr q hq w hw)
  rw [State.read_assignAll_of_ne hne, h x hx ty]

end Visible

/-- The state `s` with the fresh variables as in `t`. It looks the same as `s`, and reads as `t`
does wherever only fresh variables matter. -/
def State.overlay (s t : State M) : State M where
  read x ty := if Reserved x then t.read x ty else s.read x ty
  typed x ty := by
    split
    · exact t.typed x ty
    · exact s.typed x ty

theorem visible_overlay (s t : State M) : Visible s (s.overlay t) := fun _ hx _ => if_neg hx

/-- A formula is assured after a visible change of the state if it is assured that the change
makes it true. The change must leave fresh variables alone, as all assignments of programs do. -/
theorem assured_update {change : State M → State M} {e : Expr} {s : State M}
    (hv : ∀ t, Visible s t → Visible (change s) (change t))
    (hr : ∀ t x ty, Reserved x → (change t).read x ty = t.read x ty) :
    (∀ t, Visible s t → e.Holds M (change t)) ↔ e.Assured M (change s) := by
  constructor
  · intro h t ht
    -- `t` is what the change makes of the state before, with the fresh variables of `t`
    have heq : change (s.overlay t) = t := by
      ext x ty
      by_cases hx : Reserved x
      · rw [hr _ _ _ hx]
        exact if_pos hx
      · rw [hv _ (visible_overlay s t) x hx, ht x hx]
    rw [← heq]
    exact h _ (visible_overlay s t)
  · intro h t ht
    exact h _ (hv t ht)

/-! ## The bound names of a program

A call puts the contract of another function into a formula, so names that are bound anywhere in
the program may be bound in it. -/

/-- Some quantifier of the program binds the name. -/
def Program.Binds (p : Program) (k : String) : Prop := ∃ g ∈ p.functions, k ∈ g.binders

/-- Bound names are different from all names in the vocabulary of a function. For the names of the
text this is hygiene; fresh ones are reserved, and a bound name is not. -/
theorem Program.Hygienic.ne_of_binds {p : Program} {f : Function} (hh : p.Hygienic)
    (hf : f ∈ p.functions) {k : String} (hk : p.Binds k) {n : Nat} {v : Variable}
    (hv : f.Speaks n v) : v.name ≠ k := by
  obtain ⟨g, hg, hkg⟩ := hk
  rcases hv with hv | ⟨t, -, j, -, hv⟩
  · exact hh.across g hg f hf k hkg v hv
  · rintro rfl
    obtain ⟨e, he, hke⟩ := List.mem_flatMap.1 hkg
    obtain ⟨w, hw, hwk⟩ := Expr.exists_variable_of_binder hke
    have hmem : w ∈ g.mentions := List.mem_append_right _ (List.mem_flatMap.2 ⟨e, he, hw⟩)
    exact hh.reserved g hg w hmem (hwk ▸ Variable.reserved_of_mem_withLength_fresh hv)

/-! ## The formulas of a function

Formulas of a function are closed under the connectives and under substitution of formulas of the
function. -/

/-- An expression that may arise on a path of a function after `n` fresh variables: all that it
reads is in the vocabulary of the function, and it binds what the program binds. -/
structure Function.Says (f : Function) (p : Program) (n : Nat) (e : Expr) : Prop where
  /-- It reads variables of the function and fresh ones. -/
  reads : ∀ v ∈ e.reads [], f.Speaks n v
  /-- It binds names that the program binds. -/
  binders : ∀ k ∈ e.binders, p.Binds k

namespace Function

variable {p : Program} {f : Function} {n : Nat} {e : Expr}

theorem Says.mono (h : f.Says p n e) {m : Nat} (hm : n ≤ m) : f.Says p m e :=
  ⟨fun v hv => (h.reads v hv).mono hm, h.binders⟩

/-- Expressions of the text may arise on a path. They need no fresh variables. -/
theorem says_of_mem (hf : f ∈ p.functions) (he : e ∈ f.exprs) (n : Nat) : f.Says p n e where
  reads v hv := Or.inl (stateVariables_of_reads he hv v.self_mem_withLength)
  binders _ hk := ⟨f, hf, List.mem_flatMap.2 ⟨e, he, hk⟩⟩

theorem says_var {v : Variable} (hv : f.Speaks n v) : f.Says p n (.var v) where
  reads w hw := by
    have hwv : w = v := by simpa [Expr.reads] using hw
    exact hwv ▸ hv
  binders _ hk := by simp [Expr.binders_eq, Expr.rootBinder?, Expr.children] at hk

/-- Operators neither read nor bind anything by themselves. -/
theorem says_of_children {e : Expr} (he : e.plain) (h : ∀ c ∈ e.children, f.Says p n c) :
    f.Says p n e where
  reads v hv := by
    obtain ⟨c, hc, hvc⟩ := (Expr.mem_reads_plain he).1 hv
    exact (h c hc).reads v hvc
  binders k hk := by
    obtain ⟨c, hc, hkc⟩ := (Expr.mem_binders_plain he).1 hk
    exact (h c hc).binders k hkc

theorem Says.and {l r : Expr} (hl : f.Says p n l) (hr : f.Says p n r) : f.Says p n (l.and r) :=
  says_of_children rfl (by simp [Expr.and, Expr.children, hl, hr])

theorem Says.implies {l r : Expr} (hl : f.Says p n l) (hr : f.Says p n r) :
    f.Says p n (l.implies r) :=
  says_of_children rfl (by simp [Expr.implies, Expr.children, hl, hr])

variable (hh : p.Hygienic) (ho : p.OwnLengths) (hf : f ∈ p.functions)

include hh ho hf in
/-- Along with an array, a formula speaks of its length. -/
theorem Says.speaks_of_mem (h : f.Says p n e) {v w : Variable} (hv : v ∈ e.reads [])
    (hw : w ∈ v.withLength) : f.Speaks n w := by
  rcases Variable.mem_withLength.1 hw with rfl | hl
  · exact h.reads w hv
  · exact (vocabulary hh ho hf n).closed (h.reads v hv) hl

include hh ho hf in
theorem Says.arrayLength? (h : f.Says p n e) {r : Expr} (hr : e.arrayLength? = some r) :
    f.Says p n r where
  reads v hv := by
    obtain ⟨u, hu, hvu⟩ := Expr.mem_reads_of_arrayLength? hr hv
    exact h.speaks_of_mem hh ho hf hu hvu
  binders k hk := h.binders k (Expr.binders_of_arrayLength? hr hk)

include hh ho hf in
/-- No bound name is the name of a cell that a formula depends on. So the formula may be put below
any quantifier of the program without being captured. -/
theorem Says.not_mem_cellNames (h : f.Says p n e) {k : String} (hk : p.Binds k) :
    k ∉ e.cellNames := by
  intro hmem
  obtain ⟨v, hv, hmem⟩ := List.mem_flatMap.1 hmem
  obtain ⟨w, hw, hwk⟩ := List.mem_map.1 hmem
  exact hh.ne_of_binds hf hk (h.speaks_of_mem hh ho hf hv hw) hwk

include hh ho hf in
theorem says_of_replacement {pairs : List (Variable × Expr)} (hp : ∀ q ∈ pairs, f.Says p n q.2)
    {x : String} {r : Expr} (hr : replacement pairs x = some r) : f.Says p n r := by
  obtain ⟨q, hq, hrq⟩ := exists_of_replacement hr
  rcases Variable.replaces_eq_some hrq with ⟨-, rfl⟩ | ⟨l, -, -, hl⟩
  · exact hp q hq
  · exact (hp q hq).arrayLength? hh ho hf hl

/-- What becomes of a formula by a substitution of formulas that may arise. A name that is bound
must not be replaced, and what is not replaced must be in the vocabulary. -/
theorem says_substUnder {σ : String → Option Expr} (hσ : ∀ x r, σ x = some r → f.Says p n r)
    (hb : ∀ k ∈ e.binders, p.Binds k ∧ σ k = none)
    (he : ∀ v ∈ e.reads [], σ v.name = none → f.Speaks n v) :
    f.Says p n (Expr.substUnder σ [] e) where
  reads v hv := by
    rcases Expr.mem_reads_substUnder (fun k hk => (hb k hk).2) (by simp) hv with
      ⟨hv, hn⟩ | ⟨u, -, r, hr, hv⟩
    · exact he v hv hn
    · exact (hσ _ r hr).reads v hv
  binders k hk := by
    rcases Expr.mem_binders_substUnder hk with hk | ⟨x, r, hr, hk⟩
    · exact (hb k hk).1
    · exact (hσ x r hr).binders k hk

section Assignments

variable {g : Function} {m : Nat} {pairs : List (Variable × Expr)} (hg : g ∈ p.functions)
  (he : g.Says p m e) (hp : ∀ q ∈ pairs, Assigns (g.Speaks m) q.1 q.2)
  (ht : ∀ q ∈ pairs, f.Says p n q.2)

include hh ho hf hg he hp ht

/-- Assignments can be substituted into a formula without capture. The formula may be one of
another function, as the contract of a callee is. -/
theorem admits_replacement : e.Admits (replacement pairs) [] := by
  refine (vocabulary hh ho hg m).admits hp he.reads
    (fun k hk v hv => hh.ne_of_binds hg (he.binders k hk) hv) fun k hk x r hx => ?_
  exact (says_of_replacement hh ho hf ht hx).not_mem_cellNames hh ho hf (he.binders k hk)

/-- A formula after a substitution of assignments is true where the formula is true after the
assignments. For one assignment this is the assignment rule of Hoare logic. -/
theorem holds_replacement (s : State M) :
    (Expr.substUnder (replacement pairs) [] e).Holds M s ↔
      e.Holds M (s.assignAll (pairs.map fun q => (q.1, q.2.item M s))) := by
  rw [Expr.holds_substUnder (admits_replacement hh ho hf hg he hp ht),
    (vocabulary hh ho hg m).under_replacement hp]

/-- The result of the substitution is a formula of the function, if what remains unreplaced is in
the vocabulary. -/
theorem says_replacement
    (hn : ∀ v ∈ e.reads [], replacement pairs v.name = none → f.Speaks n v) :
    f.Says p n (Expr.substUnder (replacement pairs) [] e) :=
  says_substUnder (fun _ _ hx => says_of_replacement hh ho hf ht hx)
    (fun k hk => ⟨he.binders k hk, (admits_replacement hh ho hf hg he hp ht).keys k hk⟩) hn

end Assignments

/-! ## Formulas without fresh variables

Annotations, arguments and conditions are written in the text and have no fresh variables. In
front of an implication they can be taken out of the quantifier over states that look the same. -/

include hh hf in
theorem Says.not_reserved (he : f.Says p 0 e) {v w : Variable} (hv : v ∈ e.reads [])
    (hw : w ∈ v.withLength) : ¬ Reserved w.name := by
  have hvs := (he.reads v hv).mem_stateVariables
  rcases Variable.mem_withLength.1 hw with rfl | hl
  · exact hh.not_reserved hf hvs
  · exact hh.not_reserved hf (length?_mem_stateVariables hvs hl)

include hh hf in
theorem Says.item_of_visible (he : f.Says p 0 e) {s t : State M} (h : Visible s t) :
    e.item M t = e.item M s :=
  Expr.item_congr fun _ hv => h.agreeOn fun _ hw => he.not_reserved hh hf hv hw

include hh hf in
/-- Expressions of the text do not distinguish states that look the same, since no variable that
they read is fresh. -/
theorem Says.holds_of_visible (he : f.Says p 0 e) {s t : State M} (h : Visible s t) :
    e.Holds M t ↔ e.Holds M s :=
  Expr.holds_congr fun _ hv => h.agreeOn fun _ hw => he.not_reserved hh hf hv hw

include hh hf in
/-- A formula without fresh variables is assured if it is true. -/
theorem Says.assured_iff (he : f.Says p 0 e) (s : State M) : e.Assured M s ↔ e.Holds M s :=
  ⟨fun h => h s (.refl s), fun h _ ht => (he.holds_of_visible hh hf ht).2 h⟩

include hh hf in
/-- Of an implication, only the conclusion may have fresh variables. The premise is then true in
all states that look the same, or in none. -/
theorem Says.assured_implies (he : f.Says p 0 e) (φ : Expr) (s : State M) :
    (e.implies φ).Assured M s ↔ (e.Holds M s → φ.Assured M s) := by
  constructor
  · intro h hs t hst
    exact Expr.holds_implies.1 (h t hst) ((he.holds_of_visible hh hf hst).2 hs)
  · intro h t hst
    exact Expr.holds_implies.2 fun ht => h ((he.holds_of_visible hh hf hst).1 ht) t hst

end Function

end Pathwise
