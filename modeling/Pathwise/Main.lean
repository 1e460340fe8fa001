import Pathwise.Cli

/-!
# Pathwise.Main

The command line on a real machine.

    pathwise --source program.json [--print-cfg console|FILE] [--solver z3|cvc5|yices]
      [--timeout-ms N] [--keep-going] [--output-format text|json] [--verbose]

A solver is asked through files next to its program file: the script goes to the one
with the ending `.in`, below a comment line with the arguments, and the answer is read
from the ones with the endings `.out` and `.err`. With named pipes in these places a
loop around the solver serves every query.
-/

namespace Pathwise.Main

/-- The number of a system error. Some layers of the system pass it on negated, as a
32-bit word. -/
def errorNumber (code : UInt32) : UInt32 := min code (0 - code)

/-- The wording of a system error. -/
def reason : IO.Error → String
  | .noFileOrDirectory _ code details
  | .interrupted _ code details
  | .alreadyExists _ code details
  | .invalidArgument _ code details
  | .permissionDenied _ code details
  | .resourceExhausted _ code details
  | .inappropriateType _ code details
  | .noSuchThing _ code details
  | .otherError code details => s!"{details.capitalize} (os error {errorNumber code})"
  | e => toString e

/-- The result of an action, or the wording of its system error. -/
def attempt {α : Type} (action : IO α) : IO (Except String α) := do
  try return .ok (← action) catch e => return .error (reason e)

/-- Whether an action succeeds. -/
def succeeds {α : Type} (action : IO α) : IO Bool := do
  return (← attempt action).isOk

/-- Ask the solver at a path: arguments and script in one file, the answer in two. -/
def execute (path : String) (args : List String) (script : String) :
    IO (Except String ProcessOutput) :=
  attempt do
    IO.FS.writeFile (path ++ ".in") ("; " ++ " ".intercalate args ++ "\n" ++ script)
    let stdout ← IO.FS.readFile (path ++ ".out")
    let stderr ← attempt (IO.FS.readFile (path ++ ".err"))
    return ⟨stdout, stderr.toOption.getD ""⟩

/-- The surroundings of the running program. -/
def console : IO (Cli.Console IO) := do
  let searchPath := match ← IO.getEnv "PATH" with
    | some dirs => (Text.pieces (· = ':') dirs.toList).map String.ofList
    | none => []
  return {
    solverOverride := ← IO.getEnv "PATHWISE_SOLVER_PATH"
    searchPath
    isFile := fun path => succeeds do
      let handle ← IO.FS.Handle.mk path .read
      handle.read 1
    pathExists := fun path => succeeds (IO.FS.Handle.mk path .read)
    execute
    fileText := fun path => attempt (IO.FS.readFile path)
    saveFile := fun path text => attempt (IO.FS.writeFile path text)
    print := fun text => do
      IO.print text
      (← IO.getStdout).flush }

/-- How the program is called. -/
def usage : String :=
  "usage: pathwise --source FILE [--print-cfg console|FILE] [--solver z3|cvc5|yices]\n" ++
    "         [--timeout-ms N] [--keep-going] [--output-format text|json] [--verbose]"

end Pathwise.Main

open Pathwise in
/-- Verify a program. The exit code tells whether there was a verdict, not which. -/
def main (args : List String) : IO UInt32 := do
  match Cli.Options.ofArgs? args with
  | none =>
    IO.eprintln Main.usage
    return 2
  | some options =>
    let color ← (← IO.getStdout).isTty
    match ← (Cli.run (← Main.console) color options).run with
    | .ok () => return 0
    | .error failure =>
      IO.eprintln ("error: " ++ failure.message)
      return 1
