/-!
# Pathwise.Solver.Kind

The solvers that can decide scripts, and how each is called.

All of them read a script from standard input. They differ in the name of their program file, in
the arguments that make them do so, and in how a time limit is passed.
-/

namespace Pathwise

inductive SolverKind where
  | z3
  | cvc5
  | yices
  deriving Repr, DecidableEq, Inhabited

namespace SolverKind

/-- The name in messages. -/
def text : SolverKind → String
  | z3 => "Z3"
  | cvc5 => "CVC5"
  | yices => "Yices"

/-- The name of the program file. -/
def binary : SolverKind → String
  | z3 => "z3"
  | cvc5 => "cvc5"
  | yices => "yices-smt2"

/-- The arguments that make the solver read a script from standard input. -/
def stdinArgs : SolverKind → List String
  | z3 => ["-in"]
  | cvc5 => ["--lang", "smt2", "--produce-models"]
  | yices => ["--incremental"]

/-- The argument for a time limit in milliseconds; zero means no limit. A solver that
takes seconds gets them rounded up. -/
def timeoutArg? (kind : SolverKind) (ms : Nat) : Option String :=
  if ms = 0 then none
  else match kind with
    | z3 => some ("-t:" ++ toString ms)
    | cvc5 => some ("--tlimit=" ++ toString ms)
    | yices => some ("--timeout=" ++ toString ((ms + 999) / 1000))

/-- The solver that a name stands for, in any case. No character outside ASCII has one
of the letters of these names as its lower case, so ASCII case is all that counts. -/
def ofName? (name : String) : Option SolverKind :=
  match String.ofList (name.toList.map Char.toLower) with
  | "z3" => some z3
  | "cvc5" => some cvc5
  | "yices" | "yices2" | "yices-smt2" => some yices
  | _ => none

/-- The message for a name that stands for no solver. -/
def unknownMessage (name : String) : String :=
  "Unknown solver: " ++ name ++ ". Valid options: z3, cvc5, yices"

end SolverKind

/-- What goes wrong between the verifier and a solver. -/
inductive SolverError where
  /-- There is no program file. -/
  | notFound (kind : SolverKind) (path : String)
  /-- The solver could not be started. -/
  | process (detail : String)
  /-- The solver's output makes no sense. -/
  | output (detail : String)
  /-- The time limit was exceeded. -/
  | timeout
  deriving Repr, DecidableEq, Inhabited

def SolverError.message : SolverError → String
  | notFound kind path => kind.text ++ " binary not found at: " ++ path
  | process detail => "Solver process error: " ++ detail
  | output detail => "Failed to parse solver output: " ++ detail
  | timeout => "Solver timeout exceeded"

/-- A solver with its program file and settings. -/
structure SolverConfig where
  kind : SolverKind
  /-- Where its program file is. -/
  path : String
  /-- Time limit per query in milliseconds, zero for none. -/
  timeoutMs : Nat := 0
  extraArgs : List String := []
  deriving Repr, Inhabited

/-- All arguments of a call of the solver. -/
def SolverConfig.args (c : SolverConfig) : List String :=
  c.kind.stdinArgs ++ (c.kind.timeoutArg? c.timeoutMs).toList ++ c.extraArgs

end Pathwise
