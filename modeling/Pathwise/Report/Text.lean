import Pathwise.Report.Basic

/-!
# Pathwise.Report.Text

Reports for people: one line per function, counter models in between, and the overall verdict on
the last line. Colours are terminal escape sequences around single words.

The words in brackets have the same width as far as the name of the function, so that names line
up with or without colours.
-/

namespace Pathwise

/-- The styles in a report. -/
inductive Style where
  | good
  | bad
  | unclear
  | dimmed

/-- The parameters of the escape sequence for a style. -/
def Style.code : Style → String
  | good => "1;32"
  | bad => "1;31"
  | unclear => "1;33"
  | dimmed => "2"

/-- A word in a style, if colours are wanted. -/
def Style.paint (s : Style) (color : Bool) (word : String) : String :=
  if color then "\x1b[" ++ s.code ++ "m" ++ word ++ "\x1b[0m" else word

/-- The style of a verdict. -/
def Verdict.style : Verdict → Style
  | verified => .good
  | unknown => .unclear
  | unverified => .bad

namespace FunctionReport

def line (r : FunctionReport) (color : Bool) : String :=
  match r.verdict with
  | .verified =>
    "  " ++ Style.good.paint color "[OK]" ++ "       " ++ r.name ++ s!" ({r.checked} VCs)\n"
  | .unverified =>
    let detail := (r.failure.map Failure.description).getD "verification failed"
    "  " ++ Style.bad.paint color "[FAIL]" ++ "     " ++ r.name ++ " (" ++ detail ++ ")\n"
  | .unknown =>
    let detail := (r.failure.bind Failure.reason).getD "validity could not be decided"
    "  " ++ Style.unclear.paint color "[UNKNOWN]" ++ "  " ++ r.name ++ " (" ++ detail ++ ")\n"

/-- What follows the line of a function: the condition that failed, if it is wanted, and
its counter model. -/
def detail (r : FunctionReport) (verbose color : Bool) : String :=
  match r.failure with
  | none => ""
  | some f =>
    (if verbose then "    " ++ Style.dimmed.paint color "vc:" ++ " " ++ f.vc ++ "\n" else "") ++
      (match f.counterexample with
        | some m => CounterModel.text m ++ "\n"
        | none => "")

end FunctionReport

def ProgramReport.text (r : ProgramReport) (verbose color : Bool) : String :=
  let functions := r.functions.map fun f => f.line color ++ f.detail verbose color
  String.join functions ++ (if r.functions.isEmpty then "" else "\n") ++
    r.verdict.style.paint color r.verdict.text ++ "\n"

end Pathwise
