import Pathwise.Path.Walk
import Pathwise.Path.Wlp
import Pathwise.Report.Basic

/-!
# Pathwise.Verifier

Verification of programs against a validity checker.

The checker is any pair of operations in a monad: it may keep state, talk to a solver, refuse
predicates and fail. Each path's condition is sent to it in the order of the search, up to the
first one that is not valid. A checker that fails decides nothing, so the function's verdict is
then unknown.

The verifier itself is a visitor of the walk over basic paths (`Checker.checkPath`): it makes the
condition of the path it is shown, asks about it, and stops the walk if the answer is anything but
`valid`. Whatever goes wrong with the program itself, in the search or while a condition is made,
ends verification with an error and without a report.

Since the monad and the checker are parameters, results about verification are about all checkers
at once. `Pathwise.Proofs.Walk` says what is asked and what is reported in terms of the paths of
the function, and `Pathwise.Proofs.Verdict` takes a checker that is always right.
-/

namespace Pathwise

/-- An answer on the validity of a formula. -/
inductive Validity where
  | valid
  /-- Refuted, with values that falsify it. -/
  | invalid (m : CounterModel)
  /-- Not decided, with a reason. -/
  | unknown (reason : String)

/-- A decision procedure for formulas over registered predicates. Nothing is asked of it here; a
checker that calls every formula valid is one. -/
structure Checker (ε : Type) (m : Type → Type) where
  /-- Register a predicate. -/
  define : Predicate → m (Except ε Unit)
  /-- Decide a formula. -/
  check : Expr → m (Except ε Validity)
  /-- The wording of an error. -/
  message : ε → String

/-- What an answer that is not `valid` means for a function: the verdict, with the
counter model or the reason. -/
structure Objection where
  verdict : Verdict
  /-- The counter model, for a refuted formula. -/
  counterexample : Option CounterModel
  /-- The reason, for an undecided formula. -/
  reason : Option String

namespace Checker

variable {ε : Type} {m : Type → Type}

/-- What the answer to a formula says against it. A failure of the checker counts as an undecided
formula, with the wording of the failure as the reason. -/
def objection (c : Checker ε m) : Except ε Validity → Option Objection
  | .ok .valid => none
  | .ok (.invalid model) => some ⟨.unverified, some model, none⟩
  | .ok (.unknown reason) => some ⟨.unknown, none, some reason⟩
  | .error e => some ⟨.unknown, none, some (c.message e)⟩

variable [Monad m]

/-- The verdict on a single formula. -/
def verdict (c : Checker ε m) (e : Expr) : m Verdict := do
  match c.objection (← c.check e) with
  | none => return .verified
  | some o => return o.verdict

/-- The visitor that checks paths. It keeps the report on the function: every path with a
condition is counted before the condition is decided, and the first one that is not valid is
noted and stops the walk. -/
def checkPath (c : Checker ε m) (p : Program) (f : Function) : Visitor (StateT FunctionReport m) :=
  fun path => do
    match p.condition f path with
    | .error e => return .error e
    | .ok vc =>
      -- the count goes up before the question is asked, so a condition that is not valid is
      -- counted too
      modify fun report => { report with checked := report.checked + 1 }
      match c.objection (← c.check vc) with
      | none => return .ok .goOn
      | some o =>
        modify fun report => { report with
          verdict := o.verdict
          failure := some ⟨path.kind, path.describe f, vc.text, o.counterexample, o.reason⟩ }
        return .ok .stop

/-- Check the paths of a function up to the first one that fails. Without any, the function
is verified. -/
def verifyFunction (c : Checker ε m) (p : Program) (f : Function) :
    m (Except VerifyError FunctionReport) := do
  let done ← (f.walk p (c.checkPath p f)).run ⟨f.name, .verified, 0, none⟩
  return done.1.map fun _ => done.2

/-- Register predicates in order; whether all were accepted. The first refusal ends it. -/
def defineAll (c : Checker ε m) : List Predicate → m Bool
  | [] => return true
  | q :: qs => do
    match ← c.define q with
    | .error _ => return false
    | .ok () => c.defineAll qs

/-- Verify functions in order, up to the first unverified one unless `keepGoing`. -/
def verifyAll (c : Checker ε m) (p : Program) (keepGoing : Bool) :
    List Function → m (Except VerifyError (List FunctionReport))
  | [] => return .ok []
  | f :: fs => do
    match ← c.verifyFunction p f with
    | .error e => return .error e
    | .ok report =>
      if report.verdict = .unverified && !keepGoing then return .ok [report]
      else
        match ← c.verifyAll p keepGoing fs with
        | .error e => return .error e
        | .ok reports => return .ok (report :: reports)

/-- Verify a program. If a predicate is refused, nothing can be decided, since every
condition might mention it. -/
def verify (c : Checker ε m) (p : Program) (keepGoing : Bool) :
    m (Except VerifyError ProgramReport) := do
  match p.validate with
  | .error e => return .error (.program e)
  | .ok () =>
    if ← c.defineAll p.predicates then
      return (← c.verifyAll p keepGoing p.functions).map ProgramReport.mk
    else return .ok ⟨p.functions.map fun f => ⟨f.name, .unknown, 0, none⟩⟩

end Checker

end Pathwise
