import Pathwise.Proofs.Contract

/-!
# Pathwise.Proofs.CallSite

Calls in a validated and hygienic program.

`Function.CallSite` holds what is known of a call in the text of a function. The callee's
precondition with the arguments in it, and its postcondition with fresh variables for the results
as well, then are formulas of the caller that mean what the contract means.

Validation has checked numbers and types of arguments and targets, and hygiene that a contract
reads parameters and results only. Both are needed at each call and are collected here once
(`Function.callSite_of_action`), so that what follows is about the call and not about the program
around it.

The precondition is looked at where the callee is entered (`holds_precondition`) and the
postcondition where it is left (`holds_postcondition`). The caller checks the former and relies on
the latter.
-/

namespace Pathwise

variable {M : Meaning}

/-- A call of `g` in the text of `f`, where types and numbers of arguments and targets agree with
the contract of `g`. -/
structure Function.CallSite (p : Program) (f g : Function) (targets : List Variable)
    (args : List Expr) : Prop where
  mem : g ∈ p.functions
  args_length : g.parameters.length = args.length
  targets_length : g.results.length = targets.length
  args_fit : ∀ q ∈ g.parameters.zip args, q.1.Fits q.2
  targets_ty : ∀ q ∈ g.results.zip targets, q.1.ty = q.2.ty
  args_mem : ∀ e ∈ args, e ∈ f.exprs
  targets_mem : ∀ t ∈ targets, t ∈ f.targets

namespace Function

variable {p : Program} {f g : Function} {targets : List Variable} {args : List Expr}

/-- Calls in a function that has been checked are as described. Validation compares types, and the
kinds of variables follow from these. -/
theorem callSite_of_action (hk : p.ArrayKinds) (hf : f ∈ p.functions) (hc : f.Checked p)
    {i : BlockId} {b : Block} (hb : f.block? i = some b) {a : Statement} (ha : a ∈ b.statements)
    {id : FunctionId} (hs : a.action = .call targets id args) :
    ∃ g, p.function? id = some g ∧ f.CallSite p g targets args := by
  obtain ⟨g, hg, hargs, htargets, hcheck, hty⟩ := Program.validate_call (hc.statement hb ha) hs
  have hmem : g ∈ p.functions := List.mem_of_getElem? hg
  have hargs_mem : ∀ e ∈ args, e ∈ f.exprs := fun e he =>
    mem_exprs_of_action hb ha (by rw [hs]; exact he)
  refine ⟨g, hg, hmem, hargs, htargets, fun q hq => ?_, hty, hargs_mem, fun t ht => ?_⟩
  · obtain ⟨hq₁, hq₂⟩ := List.of_mem_zip hq
    refine Variable.Fits.of_check (hcheck q hq)
      (kind_of_mem hk hmem (List.mem_append_left _ (List.mem_append_left _ hq₁))) fun u hu => ?_
    exact kind_of_reads hk hf (hargs_mem q.2 hq₂) hu
  · exact mem_targets_of_action hb ha (by rw [hs]; exact ht)

/-- If each variable of a list gets an expression, so does each of their names. Names of lengths
are included. -/
theorem exists_zip_of_name {α : Type} {vs : List Variable} {es : List α}
    (hlen : vs.length ≤ es.length) {x : String}
    (hx : x ∈ (vs.flatMap Variable.withLength).map Variable.name) :
    ∃ q ∈ vs.zip es, ∃ w ∈ q.1.withLength, w.name = x := by
  obtain ⟨w, hw, hn⟩ := List.mem_map.1 hx
  obtain ⟨u, hu, hwu⟩ := List.mem_flatMap.1 hw
  rw [← List.map_fst_zip hlen] at hu
  obtain ⟨q, hq, rfl⟩ := List.mem_map.1 hu
  exact ⟨q, hq, w, hwu, hn⟩

/-- A function is entered with what the arguments stand for. -/
theorem enter_map (g : Function) (args : List Expr) (s base : State M) :
    g.enter base (args.map (Expr.item M s)) =
      base.assignAll ((g.parameters.zip args).map fun q => (q.1, q.2.item M s)) := by
  rw [enter, List.zip_map_right]
  rfl

/-- It is left with what arguments and results stand for. -/
theorem leave_map (g : Function) (args results : List Expr) (s base : State M) :
    g.leave base (args.map (Expr.item M s)) (results.map (Expr.item M s)) =
      base.assignAll ((g.parameters.zip args ++ g.results.zip results).map
        fun q => (q.1, q.2.item M s)) := by
  rw [leave, enter_map, List.zip_map_right, ← State.assignAll_append, List.map_append]
  rfl

namespace CallSite

variable (hh : p.Hygienic) (ho : p.OwnLengths) (hf : f ∈ p.functions)
  (hs : f.CallSite p g targets args)

include hf hs in
/-- The arguments are passed for the parameters. They are expressions of the text, and fit by
their types. -/
theorem passes_args (n : Nat) : ∀ q ∈ g.parameters.zip args, f.Passes p g n q.1 q.2 := by
  intro q hq
  obtain ⟨hq₁, hq₂⟩ := List.of_mem_zip hq
  exact ⟨List.mem_append_left _ hq₁, hs.args_fit q hq, says_of_mem hf (hs.args_mem q.2 hq₂) n⟩

include hs in
theorem speaks_of_freshAll (n : Nat) {v : Variable} (hv : v ∈ Variable.freshAll n targets) :
    f.Speaks (n + targets.length) v := by
  obtain ⟨t, ht, j, -, hj, rfl⟩ := Variable.mem_freshAll hv
  exact Or.inr ⟨t, hs.targets_mem t ht, j, hj, Variable.self_mem_withLength _⟩

include hf hs in
theorem kinds (hk : p.ArrayKinds) {q : Variable × Variable} (hq : q ∈ g.results.zip targets) :
    q.1.ty = q.2.ty ∧ q.1.isArray = q.1.ty.isArray ∧ q.2.isArray = q.2.ty.isArray := by
  obtain ⟨hq₁, hq₂⟩ := List.of_mem_zip hq
  exact ⟨hs.targets_ty q hq,
    kind_of_mem hk hs.mem (List.mem_append_left _ (List.mem_append_right _ hq₁)),
    kind_of_target hk hf (hs.targets_mem q.2 hq₂)⟩

include hh hf hs in
/-- Fresh variables are passed for the results. They have the numbers after `n`, one for each
target. -/
theorem passes_results (n : Nat) :
    ∀ q ∈ g.results.zip ((Variable.freshAll n targets).map Expr.var),
      f.Passes p g (n + targets.length) q.1 q.2 := by
  intro q hq
  obtain ⟨hq₁, hq₂⟩ := List.of_mem_zip hq
  obtain ⟨v, hv, hvq⟩ := List.mem_map.1 hq₂
  refine ⟨List.mem_append_right _ hq₁,
    Variable.fits_freshAll (fun q hq => hs.kinds hf hh.kinds hq) n q hq, ?_⟩
  rw [← hvq]
  exact says_var (hs.speaks_of_freshAll n hv)

include hs in
/-- The arguments can be bound to the parameters. -/
theorem bind_ok : ∃ σ, g.bind args = .ok σ ∧ σ.find? = replacement (g.parameters.zip args) := by
  obtain ⟨σ, hσ⟩ := Subst.exists_assignMany hs.args_fit .empty
  refine ⟨σ, ?_, funext fun x => ?_⟩
  · rw [Function.bind, require_eq_ok_iff.2 (decide_eq_true hs.args_length)]
    exact hσ
  · rw [Subst.find?_assignMany hσ, SortedMap.find?_empty, Option.or_none]

/-! ### The precondition

It reads parameters only, and these are replaced by the arguments. No fresh variables are
involved. -/

section Precondition

variable {c : Expr} (hpre : g.precondition? = some c)

include hh hs hpre in
/-- A precondition reads nothing but what is passed. -/
theorem covers_precondition :
    ∀ v ∈ c.reads [], ∃ q ∈ g.parameters.zip args, ∃ w ∈ q.1.withLength, w.name = v.name := by
  intro v hv
  exact exists_zip_of_name (Nat.le_of_eq hs.args_length) (hh.preconditions g hs.mem c hpre v hv)

include hh ho hf hs hpre in
theorem says_precondition (n : Nat) :
    f.Says p n (Expr.substUnder (replacement (g.parameters.zip args)) [] c) :=
  says_contract hh ho hf hs.mem (hs.passes_args hf n) (mem_exprs_of_precondition? hpre)
    (hs.covers_precondition hh hpre)

include hh ho hf hs hpre in
/-- The precondition with the arguments in it is true exactly if the precondition is true
when the callee is entered. -/
theorem holds_precondition (s base : State M) :
    (Expr.substUnder (replacement (g.parameters.zip args)) [] c).Holds M s ↔
      c.Holds M (g.enter base (args.map (Expr.item M s))) := by
  rw [holds_contract hh ho hf hs.mem (hs.passes_args hf 0) (mem_exprs_of_precondition? hpre)
    (hs.covers_precondition hh hpre) s base, enter_map]

end Precondition

/-! ### The postcondition

It may read parameters too, which have the values that they had on entry: the arguments are those
of the state before the call. -/

section Postcondition

variable {c : Expr} (hpost : g.postcondition? = some c) (n : Nat)

include hh hf hs in
theorem passes_all :
    ∀ q ∈ g.parameters.zip args ++ g.results.zip ((Variable.freshAll n targets).map Expr.var),
      f.Passes p g (n + targets.length) q.1 q.2 := by
  intro q hq
  rcases List.mem_append.1 hq with hq | hq
  · exact hs.passes_args hf _ q hq
  · exact hs.passes_results hh hf n q hq

include hh hs hpost in
/-- So does a postcondition, once there are fresh variables for the results. By hygiene it
mentions parameters and results only. -/
theorem covers_postcondition :
    ∀ v ∈ c.reads [], ∃ q ∈ g.parameters.zip args ++
      g.results.zip ((Variable.freshAll n targets).map Expr.var),
      ∃ w ∈ q.1.withLength, w.name = v.name := by
  intro v hv
  rcases List.mem_append.1 (hh.postconditions g hs.mem c hpost v hv) with hv | hv
  · obtain ⟨q, hq, h⟩ := exists_zip_of_name (Nat.le_of_eq hs.args_length) hv
    exact ⟨q, List.mem_append_left _ hq, h⟩
  · have hlen : g.results.length = ((Variable.freshAll n targets).map Expr.var).length := by
      rw [List.length_map, Variable.length_freshAll, hs.targets_length]
    obtain ⟨q, hq, h⟩ := exists_zip_of_name (Nat.le_of_eq hlen) hv
    exact ⟨q, List.mem_append_right _ hq, h⟩

include hh ho hf hs hpost in
theorem says_postcondition :
    f.Says p (n + targets.length) (Expr.substUnder (replacement (g.parameters.zip args ++
      g.results.zip ((Variable.freshAll n targets).map Expr.var))) [] c) :=
  says_contract hh ho hf hs.mem (hs.passes_all hh hf n) (mem_exprs_of_postcondition? hpost)
    (hs.covers_postcondition hh hpost n)

include hh ho hf hs hpost in
/-- The postcondition with arguments and fresh variables in it is true exactly if the
postcondition is true when the callee is left with the values of the fresh variables. -/
theorem holds_postcondition (s base : State M) :
    (Expr.substUnder (replacement (g.parameters.zip args ++
        g.results.zip ((Variable.freshAll n targets).map Expr.var))) [] c).Holds M s ↔
      c.Holds M (g.leave base (args.map (Expr.item M s))
        ((Variable.freshAll n targets).map fun v => (Expr.var v).item M s)) := by
  rw [holds_contract hh ho hf hs.mem (hs.passes_all hh hf n) (mem_exprs_of_postcondition? hpost)
    (hs.covers_postcondition hh hpost n) s base, ← leave_map, List.map_map]
  rfl

end Postcondition

end CallSite

end Function

end Pathwise
