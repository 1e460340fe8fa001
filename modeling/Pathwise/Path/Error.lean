import Pathwise.Program.Error

/-!
# Pathwise.Path.Error

What can stop the generation of verification conditions. Programs that pass validation leave
little of it: a block without successors, and a cycle without a loop head.

The other defects are there because the search and the folding of paths are functions on all
programs, and each has to say something where it looks for a block, a contract or a length that is
not there. `Pathwise.Proofs.Defects` proves which ones are left after validation.
-/

namespace Pathwise

/-- A structural defect met while paths are searched or folded. -/
inductive PathDefect where
  /-- An edge leads to a block that does not exist. -/
  | missingBlock (id : BlockId)
  /-- The entry is no precondition block. -/
  | notPrecondition (label : String)
  /-- The entry has not exactly one successor. -/
  | entrySuccessors (label : String) (found : Nat)
  /-- A cycle of basic blocks. -/
  | cycle (label : String)
  /-- A block other than the exit has no successors. -/
  | deadEnd (label : String)
  /-- An edge leads to a precondition block. -/
  | entryReached (target source : String)
  /-- A called function has no precondition. -/
  | missingPrecondition
  /-- A called function has no postcondition. -/
  | missingPostcondition
  /-- A store goes to something that is no array. -/
  | storeToScalar (name : String)

def PathDefect.message : PathDefect → String
  | missingBlock id => s!"block {blockIdText id} does not exist"
  | notPrecondition label => s!"{label} is not a precondition block"
  | entrySuccessors label found => s!"{label} has {found} successors, expected exactly one"
  | cycle label => s!"cycle through {label} does not pass through a loop head"
  | deadEnd label => s!"{label} has no successors and is not the postcondition"
  | entryReached target source => s!"{target} is reached from {source}"
  | missingPrecondition => "missing precondition block"
  | missingPostcondition => "missing postcondition block"
  | storeToScalar name => s!"subscript assignment to non-array `{name}`"

/-- The two lists of a call that have to fit the callee. -/
inductive CallPart where
  | arguments
  | results
  deriving DecidableEq, Repr

def CallPart.text : CallPart → String
  | arguments => "arguments"
  | results => "results"

/-- Why verification of a program cannot proceed. -/
inductive VerifyError where
  /-- The graph of a function is defective. -/
  | graph (function : String) (defect : PathDefect)
  /-- A variable would be replaced by an expression of another type. -/
  | substitution (name : String) (expected found : Ty)
  /-- A call does not fit the callee. -/
  | arity (callee : String) (part : CallPart) (expected found : Nat)
  /-- A call of a function that does not exist. -/
  | unknownFunction (id : FunctionId)
  /-- The program does not pass validation. -/
  | program (e : ProgramError)

def VerifyError.message : VerifyError → String
  | graph function defect => s!"function `{function}`: {defect.message}"
  | substitution name expected found =>
    s!"cannot substitute `{name}: {expected.text}` with an expression of type {found.text}"
  | arity callee part expected found =>
    s!"call to `{callee}` has {found} {part.text}, expected {expected}"
  | unknownFunction id => s!"unknown function {functionIdText id}"
  | program e => e.message

end Pathwise
