import Mathlib.Data.List.Forall2
import Pathwise.Proofs.Binding

/-!
# Pathwise.Proofs.Execution

What statements do to the state of the function they belong to.

* Assertions may fail; a run that fails has the outcome `none`.
* An assumption that is false blocks the run, which then has no outcome.
* A call returns any results that the contract of the callee allows (`Function.Allows`). The body
  of the callee plays no part.

Effects are a relation (`Action.Effect`) and not a function, because calls have many outcomes and
assumptions may have none. `Action.Secures` is the predicate transformer that belongs to it: the
action does not fail and leads to states with a given property only. For each action a lemma says
what it secures, without a word about outcomes. Those are the equations that weakest preconditions
are computed by, and the fold over a path is compared with them.

`Runs` and `Ensures` are the same for a list of statements. A list secures what its first
statement secures that the others secure (`ensures_cons`), so inductions over a path go from its
end to its start, as the fold does.
-/

namespace Pathwise

variable {M : Meaning}

/-! ## Items for variables

An array and its length are assigned together. What an assignment sets does not depend on the
state before, and what it does not set stays as it was; with several assignments in a row the
later ones win. -/

/-- An item may be put into a variable: it is of the variable's type, and it has a length
if the variable has one. -/
structure Item.Suits (i : Item M) (v : Variable) : Prop where
  ty : i.datum.ty = v.ty
  length : i.length.isSome = v.length?.isSome
  lengthTy : ∀ n, i.length = some n → n.ty = .int

namespace State

/-- A cell that is the same in two states is the same after an assignment to both, whether the
assignment sets it or not. -/
theorem read_assign_congr {s t : State M} {x : String} {ty : Ty} (h : s.read x ty = t.read x ty)
    (v : Variable) (i : Item M) : (s.assign v i).read x ty = (t.assign v i).read x ty := by
  unfold assign
  split <;> simp only [read_set, h]

/-- After an assignment the variable and its length do not depend on the state before. The item
must suit the variable, or else a cell of another type is set. -/
theorem read_assign_of_mem {v w : Variable} {i : Item M} (hi : i.Suits v)
    (hw : w ∈ v.withLength) (s t : State M) :
    (s.assign v i).read w.name w.ty = (t.assign v i).read w.name w.ty := by
  unfold assign
  rcases Variable.mem_withLength.1 hw with rfl | hl
  · split <;> simp [read_set, hi.ty]
  · obtain ⟨n, hn⟩ := Option.isSome_iff_exists.1 (hi.length.trans (by simp [hl]))
    simp only [hl, hn, read_set, hi.lengthTy n hn, Variable.ty_of_length? hl, true_and, if_true]

/-- An assignment leaves all cells but those of the variable as they were. -/
theorem read_assign_of_ne {v : Variable} {x : String} (h : ∀ w ∈ v.withLength, x ≠ w.name)
    (s : State M) (i : Item M) (ty : Ty) : (s.assign v i).read x ty = s.read x ty := by
  have hv := h v v.self_mem_withLength
  unfold assign
  split
  · next l n hl _ =>
      rw [read_set_of_ne _ _ _ (h l (Variable.mem_withLength.2 (Or.inr hl))),
        read_set_of_ne _ _ _ hv]
  · rw [read_set_of_ne _ _ _ hv]

variable {items : List (Variable × Item M)}

/-- Cells that were equal, or that one of the assignments sets, are equal afterwards. A later
assignment may set a cell again, to the same value on both sides. -/
theorem read_assignAll_congr (hi : ∀ q ∈ items, q.2.Suits q.1) {s t : State M} {w : Variable}
    (h : s.read w.name w.ty = t.read w.name w.ty ∨ ∃ q ∈ items, w ∈ q.1.withLength) :
    (s.assignAll items).read w.name w.ty = (t.assignAll items).read w.name w.ty := by
  induction items generalizing s t with
  | nil => exact h.resolve_right (by simp)
  | cons q rest ih =>
      obtain ⟨hq, hrest⟩ := List.forall_mem_cons.1 hi
      refine ih hrest ?_
      rcases h with h | ⟨q', hq', hw⟩
      · exact Or.inl (read_assign_congr h q.1 q.2)
      · rcases List.mem_cons.1 hq' with rfl | hq'
        · exact Or.inl (read_assign_of_mem hq hw s t)
        · exact Or.inr ⟨q', hq', hw⟩

theorem read_assignAll_of_ne {x : String} (h : ∀ q ∈ items, ∀ w ∈ q.1.withLength, x ≠ w.name)
    (s : State M) (ty : Ty) : (s.assignAll items).read x ty = s.read x ty := by
  induction items generalizing s with
  | nil => rfl
  | cons q rest ih =>
      obtain ⟨hq, hrest⟩ := List.forall_mem_cons.1 h
      exact (ih hrest _).trans (read_assign_of_ne hq s q.2 ty)

end State

/-! ## Contracts

Callee and caller have states of their own. The contract is looked at in a state of the callee of
which only parameters and results are given, so that a caller can rely on nothing else. -/

namespace Function

/-- A state of a function in which the parameters hold the given arguments. What the other
variables hold is up to `base`. -/
def enter (g : Function) (base : State M) (args : List (Item M)) : State M :=
  base.assignAll (g.parameters.zip args)

/-- A state of a function in which the parameters hold the given arguments and the results
the given results. -/
def leave (g : Function) (base : State M) (args results : List (Item M)) : State M :=
  (g.enter base args).assignAll (g.results.zip results)

/-- The contract of a function allows these results for these arguments: they are of the right
types, and the postcondition is true of both in some state of the callee. -/
def Allows (M : Meaning) (g : Function) (args results : List (Item M)) : Prop :=
  List.Forall₂ Item.Suits results g.results ∧
    ∃ post base, g.postcondition? = some post ∧ post.Holds M (g.leave base args results)

end Function

/-! ## Statements

The effects of single actions, and then of lists of them. -/

/-- The outcomes of an action: states that it may lead to, or a failure. It may also have none. -/
inductive Action.Effect (M : Meaning) (p : Program) :
    Action → State M → Option (State M) → Prop where
  | assign (v : Variable) (e : Expr) (s : State M) :
      Effect M p (.assign v e) s (some (s.assign v (e.item M s)))
  /-- The length of the array stays as it is. -/
  | store (v : Variable) (i e : Expr) (s : State M) :
      Effect M p (.store v i e) s (some (s.set v.name
        ((s.read v.name v.ty).store M.zero (i.value M s) (e.value M s))))
  | call {id : FunctionId} {callee : Function} (targets : List Variable) {args : List Expr}
      {s : State M} {results : List (Item M)} (hf : p.function? id = some callee)
      (ha : callee.Allows M (args.map (Expr.item M s)) results) :
      Effect M p (.call targets id args) s (some (s.assignAll (targets.zip results)))
  | assert {c : Expr} {s : State M} (h : c.Holds M s) : Effect M p (.assert c) s (some s)
  /-- An assertion that is false fails. -/
  | failure {c : Expr} {s : State M} (h : ¬ c.Holds M s) : Effect M p (.assert c) s none
  | assume {c : Expr} {s : State M} (h : c.Holds M s) : Effect M p (.assume c) s (some s)

/-- The action does not fail, and whenever it ends the state has the property `Q`. -/
def Action.Secures (M : Meaning) (p : Program) (a : Action) (s : State M) (Q : State M → Prop) :
    Prop :=
  ∀ o, a.Effect M p s o → ∃ s', o = some s' ∧ Q s'

namespace Action

variable {p : Program} {s : State M} {Q : State M → Prop}

/-- An assignment secures what is true once the value has been assigned. -/
theorem secures_assign {v : Variable} {e : Expr} :
    (assign v e).Secures M p s Q ↔ Q (s.assign v (e.item M s)) := by
  constructor
  · intro h
    obtain ⟨s', hs, hQ⟩ := h _ (.assign v e s)
    rwa [Option.some.inj hs]
  · rintro hQ o ⟨⟩
    exact ⟨_, rfl, hQ⟩

/-- A store secures what is true of the array with the new element in it. -/
theorem secures_store {v : Variable} {i e : Expr} :
    (store v i e).Secures M p s Q ↔
      Q (s.set v.name ((s.read v.name v.ty).store M.zero (i.value M s) (e.value M s))) := by
  constructor
  · intro h
    obtain ⟨s', hs, hQ⟩ := h _ (.store v i e s)
    rwa [Option.some.inj hs]
  · rintro hQ o ⟨⟩
    exact ⟨_, rfl, hQ⟩

/-- A call secures what is true for all results that the contract allows. The precondition of the
callee is no part of this. -/
theorem secures_call {id : FunctionId} {g : Function} {targets : List Variable}
    {args : List Expr} (hg : p.function? id = some g) :
    (call targets id args).Secures M p s Q ↔
      ∀ results, g.Allows M (args.map (Expr.item M s)) results →
        Q (s.assignAll (targets.zip results)) := by
  constructor
  · intro h results ha
    obtain ⟨s', hs, hQ⟩ := h _ (.call targets hg ha)
    rwa [Option.some.inj hs]
  · intro h o ho
    cases ho with
    | call _ hf ha =>
        cases hg.symm.trans hf
        exact ⟨_, rfl, h _ ha⟩

/-- An assertion has to be true itself. -/
theorem secures_assert {c : Expr} : (assert c).Secures M p s Q ↔ c.Holds M s ∧ Q s := by
  constructor
  · intro h
    -- if the assertion were false, the action would fail
    have hc : c.Holds M s := Classical.byContradiction fun hc =>
      (h none (.failure hc)).elim fun _ hs => nomatch hs.1
    obtain ⟨s', hs, hQ⟩ := h _ (.assert hc)
    exact ⟨hc, by rwa [Option.some.inj hs]⟩
  · rintro ⟨hc, hQ⟩ o ho
    cases ho with
    | assert _ => exact ⟨s, rfl, hQ⟩
    | failure hn => exact absurd hc hn

/-- An assumption may be relied upon. -/
theorem secures_assume {c : Expr} : (assume c).Secures M p s Q ↔ (c.Holds M s → Q s) := by
  constructor
  · intro h hc
    obtain ⟨s', hs, hQ⟩ := h _ (.assume hc)
    rwa [Option.some.inj hs]
  · intro h o ho
    cases ho with
    | assume hc => exact ⟨s, rfl, h hc⟩

theorem secures_congr {a : Action} {Q' : State M → Prop} (h : ∀ s, Q s ↔ Q' s) :
    a.Secures M p s Q ↔ a.Secures M p s Q' :=
  forall₂_congr fun _ _ => exists_congr fun s' => and_congr_right fun _ => h s'

end Action

/-- The outcomes of a list of statements. A failed assertion ends the run, and so does an
assumption that is false, which leaves no outcome at all. -/
inductive Runs (M : Meaning) (p : Program) :
    List Statement → State M → Option (State M) → Prop where
  | nil (s : State M) : Runs M p [] s (some s)
  | cons {a : Statement} {rest : List Statement} {s s' : State M} {o : Option (State M)}
      (ha : a.action.Effect M p s (some s')) (hrest : Runs M p rest s' o) :
      Runs M p (a :: rest) s o
  | failure {a : Statement} {rest : List Statement} {s : State M}
      (ha : a.action.Effect M p s none) : Runs M p (a :: rest) s none

/-- No run of the statements fails, and all that end do so in states with the property
`Q`. -/
def Ensures (M : Meaning) (p : Program) (statements : List Statement) (s : State M)
    (Q : State M → Prop) : Prop :=
  ∀ o, Runs M p statements s o → ∃ s', o = some s' ∧ Q s'

section Ensures

variable {p : Program} {a : Statement} {rest : List Statement} {s : State M}
  {Q : State M → Prop}

theorem ensures_nil : Ensures M p [] s Q ↔ Q s := by
  constructor
  · intro h
    obtain ⟨s', hs, hQ⟩ := h _ (.nil s)
    rwa [Option.some.inj hs]
  · intro hQ o ho
    cases ho
    exact ⟨s, rfl, hQ⟩

/-- A list of statements ensures what its first one ensures the rest to ensure. This is the
equation that the fold over statements computes by. -/
theorem ensures_cons :
    Ensures M p (a :: rest) s Q ↔ a.action.Secures M p s fun s' => Ensures M p rest s' Q := by
  constructor
  · intro h o ho
    cases o with
    | none => exact (h none (.failure ho)).elim fun _ hs => nomatch hs.1
    | some s' => exact ⟨s', rfl, fun o ho' => h o (.cons ho ho')⟩
  · intro h o ho
    cases ho with
    | cons ha hrest =>
        obtain ⟨s', hs, hens⟩ := h _ ha
        cases hs
        exact hens o hrest
    | failure ha => exact (h none ha).elim fun _ hs => nomatch hs.1

end Ensures

/-- Runs of two lists in a row are runs of the whole. -/
theorem Runs.append {p : Program} {front rest : List Statement} {s s' : State M}
    {o : Option (State M)} (hf : Runs M p front s (some s')) (hr : Runs M p rest s' o) :
    Runs M p (front ++ rest) s o := by
  induction front generalizing s with
  | nil =>
      cases hf
      exact hr
  | cons a front ih =>
      cases hf with
      | cons ha hf => exact .cons ha (ih hf)

end Pathwise
