import Mathlib
import Pathwise.Proofs.Conditions
import Pathwise.Proofs.Congruence
import Pathwise.Proofs.Dialogue

/-!
# Pathwise.Proofs.KeepGoing

What verification has found before it stops is not changed by going on.

Two runs are compared that start in the same state of the checker, one that stops at the first
unverified function and one that goes on. Up to that function they are the same run, so what has
to be said is what comes after it: more reports, which do not change the worst verdict, and more
questions. `Checker.recorded` keeps a list of the questions. It answers as the checker does, and
the list only grows (`Records`).

The comparison is for reports that exist: going on may meet a defect in a later function and then
has no report at all, where stopping has one. So the theorem starts from the longer run
(`keepGoing_extends`). Only functions that are refuted stop the shorter one; a function that is
undecided does not.

The recording checker is used in the statement and not in the program. That it does the same as
the checker itself is an instance of the congruence for the verifier, so there is no second
induction over the search here.
-/

namespace Pathwise

open Stateful

/-! ## Reports

The part of a report that the shorter run has. Its verdict is that of the whole, because nothing
is worse than a function that is unverified. -/

namespace ProgramReport

/-- The report up to its first unverified function, that function included; all of it if there
is none. -/
def upToUnverified (r : ProgramReport) : ProgramReport where
  functions := r.functions.takeWhile (·.verdict ≠ .unverified) ++
    (r.functions.dropWhile (·.verdict ≠ .unverified)).take 1

theorem upToUnverified_cons_of_eq {f : FunctionReport} (h : f.verdict = .unverified)
    (fs : List FunctionReport) : upToUnverified ⟨f :: fs⟩ = ⟨[f]⟩ := by
  simp [upToUnverified, h]

theorem upToUnverified_cons_of_ne {f : FunctionReport} (h : f.verdict ≠ .unverified)
    (fs : List FunctionReport) :
    upToUnverified ⟨f :: fs⟩ = ⟨f :: (upToUnverified ⟨fs⟩).functions⟩ := by
  simp [upToUnverified, h]

/-- A report without unverified functions is kept as a whole. -/
theorem upToUnverified_of_forall {r : ProgramReport}
    (h : ∀ f ∈ r.functions, f.verdict ≠ .unverified) : r.upToUnverified = r := by
  obtain ⟨fs⟩ := r
  induction fs with
  | nil => rfl
  | cons f fs ih =>
      obtain ⟨hf, hfs⟩ := List.forall_mem_cons.1 h
      rw [upToUnverified_cons_of_ne hf, ih hfs]

/-- Nothing is worse than `unverified`. -/
theorem foldl_worst_unverified (fs : List FunctionReport) :
    fs.foldl (fun v f => v.worst f.verdict) Verdict.unverified = .unverified := by
  induction fs with
  | nil => rfl
  | cons f fs ih =>
      rw [List.foldl_cons, show Verdict.unverified.worst f.verdict = .unverified by
        cases f.verdict <;> rfl]
      exact ih

/-- The functions after the first unverified one do not change the verdict, because nothing is
worse. -/
theorem verdict_upToUnverified (r : ProgramReport) : r.upToUnverified.verdict = r.verdict := by
  have key : ∀ (fs : List FunctionReport) (v : Verdict),
      (upToUnverified ⟨fs⟩).functions.foldl (fun v f => v.worst f.verdict) v =
        fs.foldl (fun v f => v.worst f.verdict) v := by
    intro fs
    induction fs with
    | nil => exact fun v => rfl
    | cons f fs ih =>
        intro v
        by_cases hf : f.verdict = .unverified
        · rw [upToUnverified_cons_of_eq hf, List.foldl_cons, List.foldl_cons, List.foldl_nil, hf,
            show v.worst .unverified = .unverified by cases v <;> rfl, foldl_worst_unverified]
        · rw [upToUnverified_cons_of_ne hf, List.foldl_cons, List.foldl_cons]
          exact ih _
  exact key r.functions .verified

end ProgramReport

/-! ## Recorded questions

The recording checker, as a computation with one more layer of state. From the relation between
the two it can be read off that questions are added at the end of the list and that none is taken
away. -/

variable {ε W α β : Type} {m : Type → Type} [Monad m] [Stateful m W] {c : Checker ε m}
  {p : Program} {f : Function} {w w' : W}

/-- A checker that answers as `c` does and keeps a list of the questions and answers. It is `c`
with one more layer of state, so it can be run side by side with `c`. -/
def Checker.recorded (c : Checker ε m) : Checker ε (StateT (List (Exchange ε)) m) where
  define q := fun asked => do
    let answer ← c.define q
    return (answer, asked ++ [.define q answer])
  check e := fun asked => do
    let answer ← c.check e
    return (answer, asked ++ [.check e answer])
  message := c.message

/-- The computation `x` does what `y` does, and adds the questions of `y` to a list. What is in
the list before makes no difference. -/
def Records (x : StateT (List (Exchange ε)) m α) (y : m α) : Prop :=
  ∀ (asked : List (Exchange ε)) (w : W), ∃ more,
    run x (asked, w) = ((run y w).1, asked ++ more, (run y w).2)

namespace Records

theorem pure (a : α) : Records (ε := ε) (pure a) (Pure.pure a : m α) := by
  intro asked w
  refine ⟨[], ?_⟩
  rw [run_pure, run_pure, List.append_nil]

/-- In a sequence, the second computation adds to what the first one has added. Neither looks at
the questions that were there before. -/
theorem bind {x : StateT (List (Exchange ε)) m α} {y : m α}
    {g : α → StateT (List (Exchange ε)) m β} {h : α → m β} (hx : Records x y)
    (hg : ∀ a, Records (g a) (h a)) : Records (x >>= g) (y >>= h) := by
  intro asked w
  obtain ⟨first, hfirst⟩ := hx asked w
  obtain ⟨second, hsecond⟩ := hg (run y w).1 (asked ++ first) (run y w).2
  refine ⟨first ++ second, ?_⟩
  rw [run_bind, run_bind, hfirst, hsecond, List.append_assoc]

theorem define (c : Checker ε m) (q : Predicate) : Records (c.recorded.define q) (c.define q) := by
  intro asked w
  refine ⟨[.define q (run (c.define q) w).1], ?_⟩
  show (_, _, _) = _
  simp only [Checker.recorded, StateT.run, run_bind, run_pure]

theorem check (c : Checker ε m) (e : Expr) : Records (c.recorded.check e) (c.check e) := by
  intro asked w
  refine ⟨[.check e (run (c.check e) w).1], ?_⟩
  show (_, _, _) = _
  simp only [Checker.recorded, StateT.run, run_bind, run_pure]

/-- To record the questions respects results and sequencing. -/
def congruence (ε : Type) (m : Type → Type) [Monad m] [Stateful m W] :
    Congruence (StateT (List (Exchange ε)) m) m where
  Rel := Records
  pure := pure
  bind := bind

theorem decides (c : Checker ε m) : (congruence ε m).Decides c.recorded c := ⟨check c, rfl⟩

/-! So the verifier asks the two checkers the same questions. -/

theorem verifyAll (c : Checker ε m) (p : Program) (keepGoing : Bool) (fs : List Function) :
    Records (c.recorded.verifyAll p keepGoing fs) (c.verifyAll p keepGoing fs) :=
  Congruence.verifyAll (decides c) p keepGoing fs

theorem verify (c : Checker ε m) (p : Program) (keepGoing : Bool) :
    Records (c.recorded.verify p keepGoing) (c.verify p keepGoing) :=
  Congruence.verify (decides c) (define c) p keepGoing

end Records

/-! ## Two runs

One induction over the list of functions, with the two runs side by side. They part at the first
unverified function: there the shorter one has its report, and the longer one asks on. -/

namespace Checker

/-- If going on leads to reports on all functions, stopping leads to those up to the first
unverified function, after an initial part of the questions. -/
theorem verifyAll_stopping {fs : List Function} {reports : List FunctionReport}
    {asked all : List (Exchange ε)}
    (h : run (c.recorded.verifyAll p true fs) (asked, w) = (.ok reports, all, w')) :
    ∃ log more w₁, all = log ++ more ∧ run (c.recorded.verifyAll p false fs) (asked, w) =
      (.ok (ProgramReport.upToUnverified ⟨reports⟩).functions, log, w₁) := by
  induction fs generalizing asked w reports with
  | nil =>
      obtain ⟨hr, hw⟩ := run_pure_eq h
      cases hr
      cases hw
      exact ⟨all, [], w', (List.append_nil all).symm, run_pure _ _⟩
  | cons f fs ih =>
      obtain ⟨report, s₁, hreport, h⟩ := run_bind_eq h
      rw [verifyAll, run_bind, hreport]
      cases report with
      | error e => cases (run_pure_eq h).1
      | ok report =>
          simp only [Bool.not_true, Bool.and_false, Bool.false_eq_true, if_false] at h
          obtain ⟨rest, s₂, hrest, h⟩ := run_bind_eq h
          cases rest with
          | error e => cases (run_pure_eq h).1
          | ok rest =>
              obtain ⟨hr, rfl⟩ := run_pure_eq h
              cases hr
              obtain ⟨log, w₁⟩ := s₁
              by_cases hf : report.verdict = .unverified
              · -- the run that goes on asks more, and the other one is at its end
                obtain ⟨more, hmore⟩ := Records.verifyAll c p true fs log w₁
                rw [hrest] at hmore
                refine ⟨log, more, w₁, congrArg (·.2.1) hmore, ?_⟩
                rw [ProgramReport.upToUnverified_cons_of_eq hf]
                simp only [hf, decide_true, Bool.not_false, Bool.and_self, if_true]
                exact run_pure _ _
              · obtain ⟨log', more, w₂, hall, hstop⟩ := ih hrest
                refine ⟨log', more, w₂, hall, ?_⟩
                rw [ProgramReport.upToUnverified_cons_of_ne hf]
                simp only [hf, decide_false, Bool.false_and, Bool.false_eq_true, if_false]
                rw [run_bind, hstop]
                exact run_pure _ _

/-- The same for programs. Validation and predicates are dealt with before the two runs differ. -/
theorem verify_stopping {report : ProgramReport} {asked all : List (Exchange ε)}
    (h : run (c.recorded.verify p true) (asked, w) = (.ok report, all, w')) :
    ∃ log more w₁, all = log ++ more ∧
      run (c.recorded.verify p false) (asked, w) = (.ok report.upToUnverified, log, w₁) := by
  have hv := validate_of_verify h
  unfold verify at h ⊢
  simp only [hv] at h ⊢
  obtain ⟨accepted, ⟨log, w₁⟩, hdefine, h⟩ := run_bind_eq h
  rw [run_bind, hdefine]
  cases accepted with
  | false =>
      -- a refused predicate leaves every function undecided, and none unverified
      obtain ⟨hr, hs⟩ := run_pure_eq h
      cases hr
      cases hs
      refine ⟨all, [], w', (List.append_nil all).symm, ?_⟩
      rw [ProgramReport.upToUnverified_of_forall (by simp)]
      exact run_pure _ _
  | true =>
      obtain ⟨reports, s, hreports, h⟩ := run_bind_eq h
      obtain ⟨hr, rfl⟩ := run_pure_eq h
      cases reports with
      | error e => cases hr
      | ok reports =>
          cases hr
          obtain ⟨log', more, w₂, hall, hstop⟩ := verifyAll_stopping hreports
          refine ⟨log', more, w₂, hall, ?_⟩
          rw [if_pos rfl, run_bind, hstop]
          exact run_pure _ _

end Checker

/-- Going on after an unverified function only adds to what verification comes to without it.
If it leads to a report, then stopping leads, from the same state of the checker, to the part
of this report up to its first unverified function, with the same verdict; the questions that
the checker is asked are an initial part of those that it is asked in the longer run. -/
theorem keepGoing_extends {report : ProgramReport}
    (h : run (c.verify p true) w = (.ok report, w')) :
    ∃ w₁ asked more,
      run (c.verify p false) w = (.ok report.upToUnverified, w₁) ∧
      report.upToUnverified.verdict = report.verdict ∧
      run (c.recorded.verify p false) ([], w) = (.ok report.upToUnverified, asked, w₁) ∧
      run (c.recorded.verify p true) ([], w) = (.ok report, asked ++ more, w') := by
  obtain ⟨all, hall⟩ := Records.verify c p true [] w
  rw [h, List.nil_append] at hall
  obtain ⟨asked, more, w₁, rfl, hstop⟩ := Checker.verify_stopping hall
  -- the shorter run of the checker itself is read off the recorded one
  obtain ⟨asked', hasked⟩ := Records.verify c p false [] w
  rw [hstop] at hasked
  have hresult : run (c.verify p false) w = (.ok report.upToUnverified, w₁) :=
    Prod.ext (congrArg (·.1) hasked).symm (congrArg (·.2.2) hasked).symm
  exact ⟨w₁, asked, more, hresult, report.verdict_upToUnverified, hstop, hall⟩

namespace Doubtful

/-- A function that does nothing. -/
def idle (name : String) : Function := ⟨name, 0, [], [], 0, 1, [
  ⟨0, .precondition (.bool true) [], [], [1], []⟩,
  ⟨1, .postcondition (.bool true), [0], [], []⟩]⟩

def program : Program := { types := .ofList [⟨[], []⟩], functions := [idle "f", idle "g"] }

/-- The only path of `idle`. -/
def path : BasicPath := ⟨.precondition, .bool true, [], .bool true, .postcondition⟩

/-- The checker that refutes the first formula, accepts all others, and counts them. -/
def checker : Checker Empty (StateM Nat) where
  define _ := pure (.ok ())
  check _ := modifyGet fun n => (.ok (if n = 0 then .invalid .empty else .valid), n + 1)
  message := nofun

/-- Verification of the function asks for one condition. The answer depends on whether it is the
first one of all. -/
theorem run_idle (name : String) (n : Nat) :
    ∃ report, run (checker.verifyFunction program (idle name)) n = (.ok report, n + 1) ∧
      report.verdict = if n = 0 then .unverified else .verified := by
  have hoks : ((idle name).paths program).outcome = .ok () := by cbv
  have hpaths : ((idle name).paths program).toList = [path] := by cbv
  have hpath : program.condition (idle name) path =
      .ok (.implies (.bool true) (.bool true)) := rfl
  cases n with
  | zero =>
      refine ⟨_, Checker.Concludes.run_verifyFunction
        (.objection hpaths (.nil _ _ _ _) hpath rfl (by simp) rfl), ?_⟩
      rfl
  | succ n =>
      refine ⟨⟨name, .verified, 1, none⟩, Checker.Concludes.run_verifyFunction ?_, rfl⟩
      rw [hoks, hpaths]
      exact .finished (.cons hpath rfl (.nil _ _ _ _))

end Doubtful

/-- The first function is refuted. Going on leads to a report on the second one as well, and
to another question. -/
theorem keepGoing_extends_doubtful :
    ∃ report, run (Doubtful.checker.verify Doubtful.program true) 0 = (.ok report, 2) ∧
      report.functions.map (·.verdict) = [.unverified, .verified] ∧
      report.upToUnverified.functions.map (·.verdict) = [.unverified] ∧
      ∃ w₁ asked more,
        run (Doubtful.checker.verify Doubtful.program false) 0 =
          (.ok report.upToUnverified, w₁) ∧
        report.upToUnverified.verdict = report.verdict ∧
        run (Doubtful.checker.recorded.verify Doubtful.program false) ([], 0) =
          (.ok report.upToUnverified, asked, w₁) ∧
        run (Doubtful.checker.recorded.verify Doubtful.program true) ([], 0) =
          (.ok report, asked ++ more, 2) := by
  obtain ⟨first, hfirst, hunverified⟩ := Doubtful.run_idle "f" 0
  obtain ⟨second, hsecond, hverified⟩ := Doubtful.run_idle "g" 1
  have hv : Doubtful.program.validate = .ok () := by cbv
  have h : run (Doubtful.checker.verify Doubtful.program true) 0 = (.ok ⟨[first, second]⟩, 2) := by
    have hfunctions : Doubtful.program.functions = [Doubtful.idle "f", Doubtful.idle "g"] := rfl
    have hpredicates : Doubtful.program.predicates = [] := rfl
    unfold Checker.verify
    simp only [hv, hpredicates, hfunctions, Checker.defineAll, Checker.verifyAll, run_bind,
      run_pure, if_true, hfirst, hsecond, Bool.not_true, Bool.and_false, Bool.false_eq_true,
      if_false]
    rfl
  refine ⟨_, h, ?_, ?_, keepGoing_extends h⟩
  · simp [hunverified, hverified]
  · rw [ProgramReport.upToUnverified_cons_of_eq hunverified]
    simp [hunverified]

end Pathwise
