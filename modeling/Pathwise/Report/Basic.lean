import Pathwise.Path.Basic
import Pathwise.SortedMap

/-!
# Pathwise.Report.Basic

The outcome of verification: a verdict per function, with the obligation that decided it if the
function was not verified.

Verdicts are ordered by how bad they are, and the verdict on a program is the worst of its
functions. A function that has not been looked at, because an earlier one was unverified, is not
in the report and does not count.
-/

namespace Pathwise

/-- A judgement on a function or a program. -/
inductive Verdict where
  | verified
  | unknown
  | unverified
  deriving Repr, DecidableEq, Inhabited

namespace Verdict

/-- How bad a verdict is. -/
def rank : Verdict → Nat
  | verified => 0
  | unknown => 1
  | unverified => 2

/-- The worse of two verdicts. -/
def worst (a b : Verdict) : Verdict := if a.rank < b.rank then b else a

def text : Verdict → String
  | verified => "VERIFIED"
  | unknown => "UNKNOWN"
  | unverified => "UNVERIFIED"

end Verdict

/-- Values of variables that falsify a formula, as text and in name order. -/
abbrev CounterModel := SortedMap String String

/-- The text of a counter model, one variable a line. -/
def CounterModel.text (m : CounterModel) : String :=
  let lines := m.entries.map fun (name, value) => name ++ " := " ++ value ++ "\n"
  "*** COUNTER MODEL\n" ++ String.join lines ++ "*** END COUNTER MODEL"

/-- The obligation that decided a verdict. -/
structure Failure where
  /-- What was to be shown. -/
  kind : ObligationKind
  /-- Obligation and route. -/
  description : String
  /-- The text of the verification condition. -/
  vc : String
  /-- Values that falsify it, if it was refuted. -/
  counterexample : Option CounterModel
  /-- Why it could not be decided, if it was not. -/
  reason : Option String
  deriving Inhabited

/-- The outcome for a function. -/
structure FunctionReport where
  name : String
  verdict : Verdict
  /-- How many verification conditions were sent to the checker. -/
  checked : Nat
  /-- What decided the verdict. -/
  failure : Option Failure
  deriving Inhabited

/-- The outcome for a program: the functions that were looked at, in order. -/
structure ProgramReport where
  functions : List FunctionReport
  deriving Inhabited

namespace ProgramReport

/-- The worst verdict; a program without outcomes is verified. -/
def verdict (r : ProgramReport) : Verdict :=
  r.functions.foldl (fun v f => v.worst f.verdict) .verified

/-- How many functions have a verdict. -/
def count (r : ProgramReport) (v : Verdict) : Nat :=
  r.functions.countP fun f => f.verdict = v

end ProgramReport

end Pathwise
