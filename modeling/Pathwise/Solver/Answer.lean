import Pathwise.Smt.Model
import Pathwise.Solver.Kind

/-!
# Pathwise.Solver.Answer

What a solver's output says.

The first line is the answer; a model or a reason may follow. Running out of time is an answer
too, whether the solver says so in its output or among its error messages.

Solvers go on after an error, so that a model may be missing or be followed by complaints about
the command that asked for it. What follows a negative answer is therefore not looked at, and what
follows an undecided one is searched for the first line that is no error message.
-/

namespace Pathwise

/-- The answer to a script. -/
inductive SolverAnswer where
  /-- Satisfiable, with a model if the solver gave one. -/
  | sat (model : Option Smt.Model)
  | unsat
  /-- Not decided, with a reason. -/
  | unknown (reason : String)
  deriving Inhabited

namespace SolverAnswer

/-- The reason for running out of time. -/
def timedOut : SolverAnswer := unknown "timeout"

/-- The first line of a text that is not blank and no error message, trimmed. -/
def reasonLine? (text : String) : Option String :=
  let lines := (Text.pieces (· = '\n') text.toList).map (Text.trimWhile Text.isBlank)
  (lines.find? fun line => !line.isEmpty && !"(error".toList.isPrefixOf line).map String.ofList

/-- The reason for an undecided script: the first line that gives one, without the
parentheses around it, or else the error messages. -/
def reason (rest stderr : String) : String :=
  match reasonLine? rest with
  | some line =>
    String.ofList (Text.dropEndWhile (· = ')') (line.toList.dropWhile (· = '(')))
  | none =>
    let messages := Text.trim stderr
    if messages.isEmpty then "unknown" else messages

/-- Read the answer from a solver's output and error messages. -/
def parse (stdout stderr : String) : Except SolverError SolverAnswer :=
  let out := Text.trimWhile Text.isBlank stdout.toList
  if out.isEmpty then
    if Text.contains stderr "timeout" then .ok timedOut
    else .error (.output ("Empty solver output. stderr: " ++ Text.trim stderr))
  else
    let (first, rest) := match Text.splitAt? (· = '\n') out with
      | some (first, rest) => (Text.trimWhile Text.isBlank first, String.ofList rest)
      | none => (out, "")
    match String.ofList first with
    | "unsat" => .ok unsat
    | "sat" =>
      match Smt.Model.parse rest with
      | .ok model => .ok (sat model)
      | .error e => .error (.output e.message)
    | "unknown" => .ok (unknown (reason rest stderr))
    | "timeout" => .ok timedOut
    | line => .error (.output ("Unexpected solver output: " ++ line))

/-- Read the answer of a solver process, where a word about time in the error messages
outweighs the output. -/
def ofProcess (stdout stderr : String) : Except SolverError SolverAnswer :=
  if Text.trim stdout = "timeout" || Text.contains stderr "timeout" then .ok timedOut
  else parse stdout stderr

end SolverAnswer

end Pathwise
