import Pathwise.Smt.Script
import Pathwise.Solver.Answer

/-!
# Pathwise.Solver.Process

Finding a solver and asking it, on any machine.

A `Machine` is what the verifier needs of its surroundings, as operations in a monad. The command
line supplies the real one; anything that only has to be reasoned about or replayed supplies its
own.

A `Backend` is all that the validity checker wants to know of a solver: scripts go in, answers
come out. The rest of this module turns a machine and the settings of a solver into one.
-/

namespace Pathwise

/-- What a process wrote. -/
structure ProcessOutput where
  stdout : String
  stderr : String

/-- The surroundings of the verifier. -/
structure Machine (m : Type → Type) where
  /-- The program file to use instead of looking for one, if the user names it. -/
  solverOverride : Option String
  /-- The directories to look for programs in. -/
  searchPath : List String
  /-- Whether a path names a file. -/
  isFile : String → m Bool
  /-- Whether a path names anything. -/
  pathExists : String → m Bool
  /-- Run a program file on arguments and an input; its output, or why it did not start. -/
  execute : String → List String → String → m (Except String ProcessOutput)

/-- Where solvers are usually installed. -/
def usualDirectories : List String := ["/opt/homebrew/bin", "/usr/local/bin", "/usr/bin"]

/-- The path of a file in a directory. -/
def joinPath (dir file : String) : String :=
  if dir.isEmpty || dir.toList.getLast? = some '/' then dir ++ file else dir ++ "/" ++ file

/-- Something that answers scripts. -/
abbrev Backend (m : Type → Type) := Smt.Script → m (Except SolverError SolverAnswer)

namespace Machine

variable {m : Type → Type} [Monad m]

/-- The first path of a list that names a file. -/
def firstFile? (machine : Machine m) : List String → m (Option String)
  | [] => return none
  | path :: rest => do
    if ← machine.isFile path then return some path else machine.firstFile? rest

/-- Find a solver: the override if it is a file, else the first directory of the search
path and then of the usual ones that has its program file. -/
def findSolver (machine : Machine m) (kind : SolverKind) :
    m (Except SolverError SolverConfig) := do
  let directories := machine.searchPath ++ usualDirectories
  let candidates := directories.map fun dir => joinPath dir kind.binary
  match ← machine.firstFile? (machine.solverOverride.toList ++ candidates) with
  | some path => return .ok { kind, path }
  | none => return .error (.notFound kind kind.binary)

/-- Check that the program file of a solver is there. -/
def validate (machine : Machine m) (c : SolverConfig) : m (Except SolverError Unit) := do
  if ← machine.pathExists c.path then return .ok ()
  else return .error (.notFound c.kind c.path)

/-- Ask a solver about a text. -/
def ask (machine : Machine m) (c : SolverConfig) (text : String) :
    m (Except SolverError SolverAnswer) := do
  match ← machine.validate c with
  | .error e => return .error e
  | .ok () =>
    match ← machine.execute c.path c.args text with
    | .error detail =>
      return .error (.process ("Failed to start " ++ c.kind.text ++ ": " ++ detail))
    | .ok output => return SolverAnswer.ofProcess output.stdout output.stderr

/-- A solver as something that answers scripts. -/
def backend (machine : Machine m) (c : SolverConfig) : Backend m := fun script =>
  machine.ask c script.query

end Machine

end Pathwise
