import Pathwise.Proofs.Congruence
import Pathwise.Proofs.Definitions
import Pathwise.Proofs.Queries

/-!
# Pathwise.Proofs.Sessions

What one verification leaves behind for the next one on the same checker.

The answers of a backend decide which formulas are asked, and with which result. This part of a
verification is the same on every checker, and `asking` is a checker that does nothing else. The
scripts are another matter: each of them holds the definitions of all predicates that were ever
registered (`Smt.run_verify`). So a program that follows others is verified with the same result
as alone, and its scripts are longer by the definitions of the others
(`verification_after_others`). Verified twice, it has its own predicates defined twice.

To compare the two runs, the backend has to answer them alike although the scripts differ. Its
answers are therefore prescribed (`Transcript`): they depend on how many scripts have been sent,
and not on which. A statement about a backend that looks at its scripts could not be made without
knowing what it does with definitions that it does not need.

The relation between the checker on the backend and `asking` is a congruence for the verifier, so
the comparison of whole verifications follows from that of a single check.
-/

namespace Pathwise

open Stateful

/-! ## Backends with prescribed answers

A backend that keeps what it is sent, a checker that keeps what it is asked, and the relation
between computations on the two: same results, and the scripts are those of the formulas. -/

/-- What was sent so far, and the answers to come. The answers are given in advance, so that two
runs can be compared on the same ones. -/
structure Transcript (α : Type) where
  /-- What was sent, in order. -/
  sent : List α
  /-- The answers that come next. -/
  answers : Nat → Except SolverError SolverAnswer

/-- Something is sent, which takes the next answer. -/
def Transcript.exchange {α : Type} (t : Transcript α) (a : α) :
    Except SolverError SolverAnswer × Transcript α :=
  (t.answers 0, ⟨t.sent ++ [a], fun i => t.answers (i + 1)⟩)

namespace Smt

/-- The backend that gives prescribed answers and keeps the scripts. -/
def scripted : Backend (StateM (Transcript Script)) := fun script => modifyGet (·.exchange script)

/-- The checker that has prescribed answers to its formulas and keeps these. It is asked the
formulas themselves, with no script around them. -/
def asking : Checker SolverError (StateM (Transcript Expr)) where
  define _ := pure (.ok ())
  check e := modifyGet fun t => ((t.exchange e).1.map (validity e), (t.exchange e).2)
  message := SolverError.message

/-- The computation `x` asks the formulas of `y`, in scripts made for the predicates that are
registered, and comes to the same result. -/
def Sends {α : Type} (x : StateT CheckerState (StateM (Transcript Script)) α)
    (y : StateM (Transcript Expr) α) : Prop :=
  ∀ (s : CheckerState) (sent : List Script) (t : Transcript Expr), ∃ more,
    (run y t).2.sent = t.sent ++ more ∧
    run x (s, ⟨sent, t.answers⟩) = ((run y t).1, { s with queries := s.queries + more.length },
      ⟨sent ++ more.map s.script, (run y t).2.answers⟩)

namespace Sends

variable {α β : Type}

theorem pure (a : α) : Sends (pure a) (Pure.pure a) := by
  intro s sent t
  refine ⟨[], (List.append_nil _).symm, ?_⟩
  simp only [run_pure, List.length_nil, Nat.add_zero, List.map_nil, List.append_nil]

/-- Scripts are sent one after the other, and answers are used up in the same order. -/
theorem bind {x : StateT CheckerState (StateM (Transcript Script)) α}
    {y : StateM (Transcript Expr) α} {g : α → StateT CheckerState (StateM (Transcript Script)) β}
    {h : α → StateM (Transcript Expr) β} (hx : Sends x y) (hg : ∀ a, Sends (g a) (h a)) :
    Sends (x >>= g) (y >>= h) := by
  intro s sent t
  obtain ⟨first, hfirst, hrun⟩ := hx s sent t
  -- the number of queries is no part of a script, so the second part sends what `s` sends
  obtain ⟨second, hsecond, hrest⟩ := hg (run y t).1 { s with queries := s.queries + first.length }
    (sent ++ first.map s.script) (run y t).2
  refine ⟨first ++ second, ?_, ?_⟩
  · rw [run_bind, hsecond, hfirst, List.append_assoc]
  · rw [run_bind, hrun, hrest, run_bind, List.length_append, List.map_append, Nat.add_assoc,
      List.append_assoc]
    rfl

theorem check (e : Expr) : Sends ((checker scripted).check e) (asking.check e) := by
  intro s sent t
  refine ⟨[e], rfl, ?_⟩
  rw [run_check]
  rfl

/-- To send the formulas respects results and sequencing. -/
def congruence :
    Congruence (StateT CheckerState (StateM (Transcript Script))) (StateM (Transcript Expr)) where
  Rel := Sends
  pure := pure
  bind := bind

theorem verifyAll (p : Program) (keepGoing : Bool) (fs : List Function) :
    Sends ((checker scripted).verifyAll p keepGoing fs) (asking.verifyAll p keepGoing fs) :=
  Congruence.verifyAll (R := congruence) ⟨check, rfl⟩ p keepGoing fs

end Sends

/-! ## One verification

Predicates are registered before any formula is asked, so all scripts of one verification are made
from the same list of predicates. -/

theorem run_defineAll {W : Type} {m : Type → Type} [Monad m] [Stateful m W] {backend : Backend m}
    (qs : List Predicate) (s : CheckerState) (w : W) :
    run ((checker backend).defineAll qs) (s, w) = (true, s.register qs, w) := by
  induction qs generalizing s with
  | nil =>
      rw [Checker.defineAll, run_pure, CheckerState.register, List.append_nil]
  | cons q qs ih =>
      rw [Checker.defineAll, run_bind, run_define]
      show run ((checker backend).defineAll qs) (s.register [q], w) = _
      rw [ih]
      simp [CheckerState.register]

/-- The answers decide the formulas that the verification of a program asks, and its result.
What was registered and sent before shows in the scripts only. -/
theorem run_verify {p : Program} (hp : p.validate = .ok ()) (keepGoing : Bool)
    (answers : Nat → Except SolverError SolverAnswer) :
    ∃ result, ∃ asked : List Expr, ∃ rest, ∀ (s : CheckerState) (sent : List Script),
      run ((checker scripted).verify p keepGoing) (s, ⟨sent, answers⟩) =
        (result, { s.register p.predicates with queries := s.queries + asked.length },
          ⟨sent ++ asked.map (s.register p.predicates).script, rest⟩) := by
  let t : Transcript Expr := ⟨[], answers⟩
  let out := run (asking.verifyAll p keepGoing p.functions) t
  refine ⟨out.1.map ProgramReport.mk, out.2.sent, out.2.answers, ?_⟩
  intro s sent
  obtain ⟨more, hmore, hrun⟩ :=
    Sends.verifyAll p keepGoing p.functions (s.register p.predicates) sent t
  have hsent : out.2.sent = more := hmore
  unfold Checker.verify
  simp only [hp]
  rw [run_bind, run_defineAll, if_pos rfl, run_bind, hrun, run_pure, hsent]
  rfl

/-! ## Definitions in scripts

The names that a script defines are those of the registered predicates, with repetitions. This is
enough to tell scripts with different numbers of predicates apart. -/

/-- A script defines the registered predicates, as often as they were registered. The checker does
not look for repetitions. -/
theorem defined_script (s : CheckerState) (e : Expr) :
    (s.script e).filterMap Command.defined? = s.predicates.map Predicate.name := by
  rw [CheckerState.script_eq, List.filterMap_append, List.filterMap_append,
    CheckerState.defined_prelude, defined_definitions]
  simp [Command.defined?]

/-- Earlier predicates show in every script. So sessions that share a checker send the same
scripts as separate ones only if no predicates were registered before, or nothing is sent. -/
theorem map_script_eq_iff {earlier qs : List Predicate} {es : List Expr} {m n : Nat} :
    es.map (CheckerState.script ⟨earlier ++ qs, m⟩) = es.map (CheckerState.script ⟨qs, n⟩) ↔
      es = [] ∨ earlier = [] := by
  constructor
  · intro h
    cases es with
    | nil => exact Or.inl rfl
    | cons e es =>
        have hdefined := congrArg (List.filterMap Command.defined?) (List.cons.inj h).1
        have hlength := congrArg List.length hdefined
        simp only [defined_script, List.length_map, List.length_append] at hlength
        exact Or.inr (List.length_eq_zero_iff.1 (by omega))
  · intro h
    rcases h with rfl | rfl
    · rfl
    · rfl

/-- A program `q` is verified on a checker that has verified `p` before, and others before `p`,
which have left the predicates of `s`. The result is that of `q` alone with the same answers,
and so are the formulas. But the scripts also define the predicates of `p` and of those before,
so that they are the scripts of `q` alone only if there are no such predicates, or nothing is
asked. If `p` and `q` share predicates, as they do if they are the same program, every script
defines these more than once. -/
theorem verification_after_others {p q : Program} (hp : p.validate = .ok ())
    (hq : q.validate = .ok ()) (keepGoing : Bool) (s : CheckerState) (t : Transcript Script)
    {first second alone : Except VerifyError ProgramReport × CheckerState × Transcript Script}
    (hfirst : run ((checker scripted).verify p keepGoing) (s, t) = first)
    (hsecond : run ((checker scripted).verify q keepGoing) first.2 = second)
    (halone : run ((checker scripted).verify q keepGoing) ({}, ⟨[], first.2.2.answers⟩) = alone) :
    first.2.1.predicates = s.predicates ++ p.predicates ∧
    second.1 = alone.1 ∧
    ∃ asked : List Expr,
      alone.2.2.sent = asked.map (CheckerState.script ⟨q.predicates, 0⟩) ∧
      second.2.2.sent = first.2.2.sent ++
        asked.map (CheckerState.script ⟨s.predicates ++ p.predicates ++ q.predicates, 0⟩) ∧
      (second.2.2.sent = first.2.2.sent ++ alone.2.2.sent ↔
        asked = [] ∨ s.predicates ++ p.predicates = []) ∧
      ∀ e ∈ asked,
        (CheckerState.script ⟨s.predicates ++ p.predicates ++ q.predicates, 0⟩ e).filterMap
          Command.defined? = (s.predicates ++ p.predicates ++ q.predicates).map Predicate.name := by
  obtain ⟨sent, answers⟩ := t
  obtain ⟨result₁, asked₁, rest₁, hrun₁⟩ := run_verify hp keepGoing answers
  obtain rfl := (hrun₁ s sent).symm.trans hfirst
  -- the second program is run twice from the same answers, in different states of the checker
  obtain ⟨result₂, asked, rest₂, hrun₂⟩ := run_verify hq keepGoing rest₁
  obtain rfl := (hrun₂ _ _).symm.trans hsecond
  obtain rfl := (hrun₂ _ _).symm.trans halone
  refine ⟨rfl, rfl, asked, rfl, rfl, ?_, ?_⟩
  · show _ ++ asked.map (CheckerState.script ⟨s.predicates ++ p.predicates ++ q.predicates, _⟩) =
      _ ++ asked.map (CheckerState.script ⟨q.predicates, 0⟩) ↔ _
    rw [List.append_cancel_left_eq, map_script_eq_iff]
  · intro e _
    exact defined_script _ e

/-- The counting program has no predicates, and follows a program with one. Its five scripts then
define this predicate. -/
theorem verification_after_others_count :
    ∃ first second alone, Lengths.passing.validate = .ok () ∧ Counting.program.validate = .ok () ∧
      run ((checker scripted).verify Lengths.passing false) ({}, ⟨[], fun _ => .ok .unsat⟩) =
        first ∧
      run ((checker scripted).verify Counting.program false) first.2 = second ∧
      run ((checker scripted).verify Counting.program false) ({}, ⟨[], first.2.2.answers⟩) =
        alone ∧
      second.1 = alone.1 ∧ alone.2.2.sent.length = 5 ∧
      ∃ asked : List Expr,
        alone.2.2.sent = asked.map (CheckerState.script ⟨[], 0⟩) ∧
        second.2.2.sent = first.2.2.sent ++
          asked.map (CheckerState.script ⟨[Lengths.regular], 0⟩) ∧
        second.2.2.sent ≠ first.2.2.sent ++ alone.2.2.sent ∧
        ∀ e ∈ asked, (CheckerState.script ⟨[Lengths.regular], 0⟩ e).filterMap
          Command.defined? = ["regular"] := by
  have hp : Lengths.passing.validate = .ok () := by cbv
  have hq : Counting.program.validate = .ok () := by cbv
  obtain ⟨-, hresult, asked, halone, hsecond, hiff, hdefined⟩ :=
    verification_after_others hp hq false {} ⟨[], fun _ => .ok .unsat⟩ rfl rfl rfl
  have hlength : (run ((checker scripted).verify Counting.program false) ({}, ⟨[],
      (run ((checker scripted).verify Lengths.passing false)
        ({}, ⟨[], fun _ => .ok .unsat⟩)).2.2.answers⟩)).2.2.sent.length = 5 := by cbv
  refine ⟨_, _, _, hp, hq, rfl, rfl, rfl, hresult, hlength, asked, halone, hsecond, ?_, hdefined⟩
  intro h
  rcases hiff.1 h with rfl | hnone
  · rw [halone] at hlength
    exact absurd hlength (by simp)
  · exact absurd hnone (by simp [Lengths.passing])

/-- A program that is verified twice has its predicate defined twice in the second run. -/
theorem predicates_defined_again :
    ∃ first second alone, Lengths.passing.validate = .ok () ∧
      run ((checker scripted).verify Lengths.passing false) ({}, ⟨[], fun _ => .ok .unsat⟩) =
        first ∧
      run ((checker scripted).verify Lengths.passing false) first.2 = second ∧
      run ((checker scripted).verify Lengths.passing false) ({}, ⟨[], first.2.2.answers⟩) =
        alone ∧
      alone.2.2.sent.map (List.filterMap Command.defined?) = [["regular"], ["regular"]] ∧
      second.2.2.sent.map (List.filterMap Command.defined?) =
        [["regular"], ["regular"], ["regular", "regular"], ["regular", "regular"]] :=
  ⟨_, _, _, by cbv, rfl, rfl, rfl, by cbv, by cbv⟩

end Smt

end Pathwise
