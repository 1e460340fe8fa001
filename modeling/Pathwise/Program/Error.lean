import Pathwise.Typing

/-!
# Pathwise.Program.Error

What can be wrong with a program, and the wording of each defect.

`ProgramError` covers everything that building or validating a program can report. Each
constructor is a cause; `ProgramError.message` is its only wording. Causes carry what the message
mentions and no more: blocks appear by label, functions and predicates by name, expressions with
the fault that was found in them.

Defects of functions and of predicates are types of their own, below `ProgramError`, so that the
name of the function or predicate is put in front of every one of them in one place.
-/

namespace Pathwise

/-- A defect in the definition of a predicate. -/
inductive PredicateDefect where
  /-- The signature number is not in the table. -/
  | unknownSignature (id : SigId)
  /-- The signature disagrees with the parameters or the Boolean result. -/
  | signatureMismatch (sig : Signature)
  /-- The body has no type. -/
  | illTyped (fault : TypeFault)
  /-- The body is no formula. -/
  | bodyType (found : Ty)
  /-- The body applies the predicate itself. -/
  | recursive
  /-- The body mentions a variable that is no parameter. -/
  | freeVariable (name : String)

def PredicateDefect.message : PredicateDefect → String
  | unknownSignature id => s!"unknown signature {sigIdText id}"
  | signatureMismatch sig => s!"signature {sig.text} does not match parameters"
  | illTyped fault => fault.message
  | bodyType found => s!"body has type {found.text}, expected bool"
  | recursive => "predicates may not be recursive"
  | freeVariable name => s!"free variable `{name}` is not a parameter"

/-- A defect in the graph or the statements of a function. Blocks appear by label. -/
inductive FunctionDefect where
  /-- The signature number is not in the table. -/
  | unknownSignature (id : SigId)
  /-- The signature disagrees with parameters or results. -/
  | signatureMismatch (sig : Signature)
  /-- A block's id is not its position. -/
  | mislabelled (position : Nat) (id : BlockId)
  /-- The target of an edge does not list its source. -/
  | missingPredecessor (source target : String)
  /-- The source of an edge does not list its target. -/
  | missingSuccessor (source target : String)
  /-- A precondition block that is not the entry. -/
  | strayPrecondition (label : String)
  /-- A postcondition block that is not the exit. -/
  | strayPostcondition (label : String)
  /-- An expression has no type. -/
  | illTyped (fault : TypeFault)
  /-- A quantified variable is assigned. -/
  | assignedQuantified (name : String)
  /-- A store goes to something that is no array. -/
  | notArray (name : String)
  /-- A call passes the wrong number of arguments. -/
  | callArguments (callee : String) (found expected : Nat)
  /-- A call binds the wrong number of results. -/
  | callResults (callee : String) (found expected : Nat)
  /-- The entry is no precondition block. -/
  | notPrecondition (label : String)
  /-- The entry has predecessors, statements, or not exactly one successor. -/
  | entryShape (label : String)
  /-- The exit is no postcondition block. -/
  | notPostcondition (label : String)
  /-- The exit has successors or statements. -/
  | exitShape (label : String)
  /-- The exit has no predecessors. -/
  | exitUnreachable (label : String)
  /-- A block cannot be reached from the entry. -/
  | unreachable (label : String)
  /-- A ranking function is attached to a block that cannot carry one. -/
  | cannotRank (id : BlockId)

def FunctionDefect.message : FunctionDefect → String
  | unknownSignature id => s!"unknown signature {sigIdText id}"
  | signatureMismatch sig => s!"signature {sig.text} does not match parameters and return values"
  | mislabelled position id => s!"block at index {position} is labelled {blockIdText id}"
  | missingPredecessor source target =>
    s!"edge {source} -> {target} is missing its predecessor entry"
  | missingSuccessor source target => s!"edge {source} -> {target} is missing its successor entry"
  | strayPrecondition label => s!"stray precondition block {label}"
  | strayPostcondition label => s!"stray postcondition block {label}"
  | illTyped fault => fault.message
  | assignedQuantified name => s!"quantified variable `{name}` is assigned"
  | notArray name => s!"`{name}` is not an array"
  | callArguments callee found expected =>
    s!"call to `{callee}` passes {found} arguments, expected {expected}"
  | callResults callee found expected =>
    s!"call to `{callee}` binds {found} results, expected {expected}"
  | notPrecondition label => s!"{label} is not a precondition block"
  | entryShape label =>
    s!"{label} must have no predecessors, exactly one successor and no statements"
  | notPostcondition label => s!"{label} is not a postcondition block"
  | exitShape label => s!"{label} must have no successors and no statements"
  | exitUnreachable label => s!"{label} is unreachable"
  | unreachable label => s!"{label} is unreachable from the precondition"
  | cannotRank id => s!"block {blockIdText id} cannot carry a ranking function"

/-- Where an expression of the wrong type stands. -/
inductive TypeContext where
  | precondition
  | postcondition
  | rankingFunction
  | invariant (label : String)
  | assignment (target : String)
  | arrayIndex
  | store (array : String)
  | argument (parameter : String)
  | result (callee : String)
  | assertion
  | assumption

def TypeContext.message : TypeContext → String
  | precondition => "precondition"
  | postcondition => "postcondition"
  | rankingFunction => "ranking function"
  | invariant label => s!"invariant of {label}"
  | assignment target => s!"assignment to `{target}`"
  | arrayIndex => "array index"
  | store array => s!"store into `{array}`"
  | argument parameter => s!"argument `{parameter}`"
  | result callee => s!"result of `{callee}`"
  | assertion => "assertion"
  | assumption => "assume"

/-- What is wrong with a program. -/
inductive ProgramError where
  /-- A function is malformed. -/
  | malformed (function : String) (defect : FunctionDefect)
  /-- A predicate is malformed. -/
  | malformedPredicate (predicate : String) (defect : PredicateDefect)
  /-- An expression has a type, but not the one its place asks for. -/
  | typeMismatch (function : String) (context : TypeContext) (expected found : Ty)
  /-- A call of a function that does not exist. -/
  | unknownFunction (id : FunctionId)
  /-- A name is defined twice. -/
  | duplicate (name : String)
  /-- An edge to a block that does not exist. -/
  | unknownBlock (function : String) (id : BlockId)

def ProgramError.message : ProgramError → String
  | malformed function defect => s!"function `{function}`: {defect.message}"
  | malformedPredicate predicate defect => s!"predicate `{predicate}`: {defect.message}"
  | typeMismatch function context expected found =>
    s!"function `{function}`: type mismatch in {context.message}: " ++
      s!"expected {expected.text}, found {found.text}"
  | unknownFunction id => s!"unknown function {functionIdText id}"
  | duplicate name => s!"duplicate definition of `{name}`"
  | unknownBlock function id => s!"function `{function}`: block {blockIdText id} does not exist"

end Pathwise
