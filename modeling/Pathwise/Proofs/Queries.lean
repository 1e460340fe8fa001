import Mathlib
import Pathwise.Proofs.Conditions
import Pathwise.Proofs.Dialogue
import Pathwise.Smt.Checker

/-!
# Pathwise.Proofs.Queries

What a backend is asked before a program counts as verified.

The checker on a backend turns each question for validity into a script that asserts the negation
(`Smt.assertions_script`), and the answer `unsat` is the only one that it takes for validity. So
the dialogue behind a positive verdict is a sequence of scripts, one for each condition, with the
answer `unsat` to all of them.

A script consists of options, declarations, definitions of predicates and one assertion. Only the
last of these constrains anything, so a backend that is right about scripts is right about the
negated condition.

Errors of the backend, `unknown` and models are all taken for something other than validity. That
is the point of the argument: a positive verdict cannot come from an answer that was lost, misread
or given up on.
-/

namespace Pathwise

open Stateful

namespace Smt

/-! ## Scripts

The assertions of a script, picked out command by command. -/

/-- The term that a command asserts. -/
def Command.assertion? : Command → Option Term
  | assert t => some t
  | _ => none

/-- The terms that a script asserts. -/
def Script.assertions (s : Script) : List Term := s.filterMap Command.assertion?

theorem assertions_declarations (e : Expr) (keep : Command → Bool) :
    (e.declarations.filter keep).filterMap Command.assertion? = [] := by
  rw [List.filterMap_eq_nil_iff]
  intro c hc
  have hmem := List.mem_of_mem_filter hc
  simp only [Expr.declarations, List.mem_append, List.mem_map] at hmem
  rcases hmem with ⟨x, -, rfl⟩ | ⟨x, -, rfl⟩ <;> rfl

theorem assertions_map {α : Type} {l : List α} {g : α → Command}
    (h : ∀ a ∈ l, (g a).assertion? = none) : (l.map g).filterMap Command.assertion? = [] := by
  rw [List.filterMap_map]
  exact List.filterMap_eq_nil_iff.2 h

/-- The only assertion of the script for a formula is the negation of the formula. So the script
can be satisfied where the formula can be false. -/
theorem assertions_script (s : CheckerState) (e : Expr) :
    (s.script e).assertions = [.not e.encode] := by
  unfold Script.assertions CheckerState.script
  simp only [List.filterMap_append, assertions_declarations]
  rw [assertions_map fun _ _ => rfl, assertions_map fun _ _ => rfl]
  rfl

/-- The state after the registration of more predicates. -/
def CheckerState.register (s : CheckerState) (qs : List Predicate) : CheckerState :=
  { s with predicates := s.predicates ++ qs }

/-! ## Queries

The operations of the checker as steps on its state and the backend. Registering a predicate sends
nothing; a check sends one script, made from the predicates so far. -/

/-- The scripts take the backend from one state to another, with these answers. -/
inductive Queries {W : Type} {m : Type → Type} [Monad m] [Stateful m W] (backend : Backend m) :
    W → List (Script × Except SolverError SolverAnswer) → W → Prop where
  | nil (w : W) : Queries backend w [] w
  | cons {w w₁ w' : W} {script : Script} {answer : Except SolverError SolverAnswer}
      {rest : List (Script × Except SolverError SolverAnswer)}
      (ha : run (backend script) w = (answer, w₁)) (hr : Queries backend w₁ rest w') :
      Queries backend w ((script, answer) :: rest) w'

variable {W : Type} {m : Type → Type} [Monad m] [Stateful m W] {backend : Backend m}

theorem run_get (s : CheckerState) (w : W) :
    run (get : StateT CheckerState m CheckerState) (s, w) = (s, s, w) := by
  show (_, _, _) = _
  simp only [StateT.run_get, run_pure]

theorem run_define (q : Predicate) (s : CheckerState) (w : W) :
    run ((checker backend).define q) (s, w) =
      (.ok (), s.register [q], w) := by
  simp only [checker, run_bind, run_modify, run_pure, CheckerState.register]

/-- A check sends the script of the formula and counts it. -/
theorem run_check (e : Expr) (s : CheckerState) (w : W) :
    run ((checker backend).check e) (s, w) =
      ((run (backend (s.script e)) w).1.map (validity e), { s with queries := s.queries + 1 },
        (run (backend (s.script e)) w).2) := by
  simp only [checker, run_bind, run_get, run_modify, run_lift, run_pure]

/-- Only `unsat` is taken for validity. The query asserts the negation of the formula. -/
theorem unsat_of_valid {e : Expr} {answer : Except SolverError SolverAnswer}
    (h : answer.map (validity e) = .ok .valid) : answer = .ok .unsat := by
  rcases answer with err | model | _ | reason
  · cases h
  · cases h
  · rfl
  · cases h

/-- Registered predicates change the state and are not sent. -/
theorem dialogue_of_define {s : CheckerState} {w : W} {qs : List Predicate}
    {l : List (Exchange SolverError)} {t : CheckerState × W}
    (h : (checker backend).Dialogue (s, w) (qs.map (fun q => .define q (.ok ())) ++ l) t) :
    (checker backend).Dialogue (s.register qs, w) l t := by
  induction qs generalizing s with
  | nil => simpa [CheckerState.register] using h
  | cons q qs ih =>
      rw [List.map_cons, List.cons_append] at h
      cases h with
      | define ha hr =>
          cases (run_define q s w).symm.trans ha
          simpa [CheckerState.register] using ih hr

/-- To confirm formulas the backend is sent their scripts, and refutes all of them. There is one
script for each formula. -/
theorem queries_of_confirms {s : CheckerState} {w : W} {vcs : List Expr} {t : CheckerState × W}
    (h : (checker backend).Confirms (s, w) vcs t) :
    Queries backend w (vcs.map fun vc => (s.script vc, .ok .unsat)) t.2 := by
  induction vcs generalizing s w with
  | nil =>
      cases h
      exact .nil w
  | cons vc vcs ih =>
      cases h with
      | check ha hr =>
          obtain ⟨hvalid, rfl⟩ := Prod.mk.inj ((run_check vc s w).symm.trans ha)
          have hanswer : run (backend (s.script vc)) w =
              (.ok .unsat, (run (backend (s.script vc)) w).2) :=
            Prod.ext (unsat_of_valid hvalid) rfl
          exact .cons hanswer (ih (s := { s with queries := s.queries + 1 }) hr)

end Smt

/-! ## What the verdict rests on

The dialogue of the verifier, translated into what the backend has been sent. The predicates are
registered first, so all scripts are made with all of them. -/

/-- A program with functions is verified only after a complete proof. Every checker accepts
all predicates first, and then finds the conditions of all paths of all functions valid, in
the order of the search, which meets no defect; there is a report on each function. A checker
on a backend has then been told `unsat` for the script of each condition, in which the
negation of the condition is the only assertion. -/
theorem verified_by_complete_proof {p : Program} (hf : p.functions ≠ []) (keepGoing : Bool) :
    (∀ {ε W : Type} {m : Type → Type} [Monad m] [Stateful m W] (c : Checker ε m) (w w' : W)
      (report : ProgramReport), run (c.verify p keepGoing) w = (.ok report, w') →
      report.verdict = .verified →
      report.functions = p.functions.map (·.verifiedReport p) ∧
        (∀ f ∈ p.functions, (f.paths p).outcome = .ok ()) ∧
        ∃ vcs, p.Conditions p.functions vcs ∧
          c.Dialogue w (p.predicates.map (fun q => .define q (.ok ())) ++
            vcs.map fun vc => .check vc (.ok .valid)) w') ∧
    ∀ {W : Type} {m : Type → Type} [Monad m] [Stateful m W] (backend : Backend m)
      (s s' : Smt.CheckerState) (w w' : W) (report : ProgramReport),
      run ((Smt.checker backend).verify p keepGoing) (s, w) = (.ok report, s', w') →
      report.verdict = .verified →
      ∃ vcs, p.Conditions p.functions vcs ∧
        Smt.Queries backend w
          (vcs.map fun vc => ((s.register p.predicates).script vc, .ok .unsat)) w' ∧
        ∀ vc ∈ vcs, ((s.register p.predicates).script vc).assertions = [.not vc.encode] := by
  constructor
  · intro ε W m _ _ c w w' report h hv
    exact Checker.dialogue_of_verify hf h hv
  · intro W m _ _ backend s s' w w' report h hv
    obtain ⟨-, -, vcs, hvcs, hdialogue⟩ := Checker.dialogue_of_verify hf h hv
    exact ⟨vcs, hvcs, Smt.queries_of_confirms (Smt.dialogue_of_define hdialogue),
      fun vc _ => Smt.assertions_script _ vc⟩

namespace Credulous

/-- The checker that accepts everything and counts the questions. -/
def checker : Checker Empty (StateM Nat) where
  define _ := modifyGet fun n => (.ok (), n + 1)
  check _ := modifyGet fun n => (.ok .valid, n + 1)
  message := nofun

/-- The backend that refutes everything and counts the scripts. -/
def backend : Backend (StateM Nat) := fun _ => modifyGet fun n => (.ok .unsat, n + 1)

end Credulous

/-- The predicate and the two functions of `passing` take three questions, two of them to the
backend. -/
theorem verified_by_complete_proof_passing :
    Lengths.passing.functions ≠ [] ∧
    (∃ report, run (Credulous.checker.verify Lengths.passing false) 0 = (.ok report, 3) ∧
      report.verdict = .verified ∧
      ∃ vcs, Lengths.passing.Conditions Lengths.passing.functions vcs ∧
        Credulous.checker.Dialogue 0
          (.define Lengths.regular (.ok ()) :: vcs.map fun vc => .check vc (.ok .valid)) 3) ∧
    ∃ report s', run ((Smt.checker Credulous.backend).verify Lengths.passing false) ({}, 0) =
        (.ok report, s', 2) ∧
      report.verdict = .verified ∧
      ∃ vcs, Lengths.passing.Conditions Lengths.passing.functions vcs ∧
        Smt.Queries Credulous.backend 0
          (vcs.map fun vc => (Smt.CheckerState.script ⟨[Lengths.regular], 0⟩ vc, .ok .unsat)) 2 ∧
        ∀ vc ∈ vcs, (Smt.CheckerState.script ⟨[Lengths.regular], 0⟩ vc).assertions =
          [.not vc.encode] := by
  have hf : Lengths.passing.functions ≠ [] := by simp [Lengths.passing]
  obtain ⟨hchecker, hbackend⟩ := verified_by_complete_proof hf false
  refine ⟨hf, ?_, ?_⟩
  · obtain ⟨report, h, hv⟩ : ∃ report,
        run (Credulous.checker.verify Lengths.passing false) 0 = (.ok report, 3) ∧
          report.verdict = .verified := ⟨_, by cbv, by cbv⟩
    obtain ⟨-, -, vcs, hvcs, hdialogue⟩ := hchecker _ _ _ _ h hv
    exact ⟨report, h, hv, vcs, hvcs, hdialogue⟩
  · obtain ⟨report, s', h, hv⟩ : ∃ report s',
        run ((Smt.checker Credulous.backend).verify Lengths.passing false) ({}, 0) =
          (.ok report, s', 2) ∧ report.verdict = .verified := ⟨_, _, by cbv, by cbv⟩
    have hregister : Smt.CheckerState.register {} Lengths.passing.predicates =
        ⟨[Lengths.regular], 0⟩ := rfl
    have hqueries := hbackend _ _ _ _ _ _ h hv
    rw [hregister] at hqueries
    exact ⟨report, s', h, hv, hqueries⟩

end Pathwise
