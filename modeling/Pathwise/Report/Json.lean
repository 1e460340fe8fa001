import Pathwise.Json.Basic
import Pathwise.Report.Basic

/-!
# Pathwise.Report.Json

Reports for programs: verdict, functions and a summary as JSON.

Members that have nothing to say are left out, except for the counterexample of a failure, which
is `null` where there is none.
-/

namespace Pathwise

open Json

/-- The lower-case word for a verdict. -/
def Verdict.status : Verdict → String
  | verified => "verified"
  | unknown => "unknown"
  | unverified => "unverified"

/-- The name of an obligation kind. -/
def ObligationKind.status : ObligationKind → String
  | postcondition => "postcondition"
  | established _ => "invariant_established"
  | maintained _ => "invariant_maintained"
  | assertion _ => "assertion"
  | callPrecondition _ _ => "call_precondition"

def CounterModel.toJson (m : CounterModel) : Json :=
  arr (m.entries.map fun (name, value) => obj [("variable", str name), ("value", str value)])

/-- A failure. The counterexample is always a member, the reason only if there is one. -/
def Failure.toJson (f : Failure) : Json :=
  obj ([("vc_kind", str f.kind.status), ("description", str f.description), ("vc", str f.vc),
    ("counterexample", (f.counterexample.map CounterModel.toJson).getD null)] ++
    (f.reason.map fun r => ("reason", str r)).toList)

def FunctionReport.toJson (r : FunctionReport) : Json :=
  obj ([("name", str r.name), ("status", str r.verdict.status), ("vc_count", int r.checked)] ++
    (r.failure.map fun f => ("failure", f.toJson)).toList)

def ProgramReport.toJson (r : ProgramReport) : Json :=
  obj [("verdict", str r.verdict.status),
    ("functions", arr (r.functions.map FunctionReport.toJson)),
    ("summary", obj [("total", int r.functions.length), ("verified", int (r.count .verified)),
      ("unverified", int (r.count .unverified)), ("unknown", int (r.count .unknown))])]

end Pathwise
