import Pathwise.Program.Validate

/-!
# Pathwise.Program.Builder

Building programs step by step.

Functions are declared with their contracts first and get their bodies afterwards, so a body may
call any declared function. A step that refers to a function or block that does not exist changes
nothing but is remembered: `Builder.finish` reports the first such failure, and otherwise what
validation says.

The steps never fail by themselves, so that they can be chained without a check in between.
Signatures are interned as functions and predicates are declared, and statements get their numbers
here, in the order in which they are added over the whole program.

What a sequence of steps builds, and which programs can be built at all, is worked out in
`Pathwise.Proofs.Building`.
-/

namespace Pathwise

/-- The kind with another ranking function, if it can carry one. -/
def BlockKind.rank? (ranking : List Expr) : BlockKind → Option BlockKind
  | .precondition condition _ => some (.precondition condition ranking)
  | .loopHead invariant _ => some (.loopHead invariant ranking)
  | _ => none

/-- Change the block at a position. -/
def Function.modifyBlock (f : Function) (id : BlockId) (change : Block → Block) : Function :=
  { f with blocks := f.blocks.modify id change }

/-- A program under construction. -/
structure Builder where
  /-- The program so far. -/
  program : Program := {}
  /-- How many statements were added. -/
  statements : Nat := 0
  /-- The first failure. -/
  failure : Option ProgramError := none
  deriving Inhabited

namespace Builder

/-- Remember a failure, unless there was one before. -/
def fail (b : Builder) (e : ProgramError) : Builder := { b with failure := b.failure <|> some e }

/-- Declare a function with its contract; its number. The entry and the exit are blocks
zero and one. -/
def declare (b : Builder) (name : String) (parameters results : List Variable)
    (pre post : Expr) : FunctionId × Builder :=
  let (sig, types) := b.program.types.intern
    ⟨parameters.map Variable.ty, results.map Variable.ty⟩
  let f : Function := {
    name, sig, parameters, results
    entry := 0
    exit := 1
    blocks := [.new 0 (.precondition pre []), .new 1 (.postcondition post)] }
  (b.program.functions.length,
    { b with program := { b.program with types, functions := b.program.functions ++ [f] } })

def predicate (b : Builder) (name : String) (parameters : List Variable) (body : Expr) :
    Builder :=
  let (sig, types) := b.program.types.intern (.predicate (parameters.map Variable.ty))
  let q : Predicate := { name, sig, parameters, body }
  { b with program := { b.program with types, predicates := b.program.predicates ++ [q] } }

def setFunction (b : Builder) (id : FunctionId) (f : Function) : Builder :=
  { b with program := { b.program with functions := b.program.functions.set id f } }

/-- Work on the body of a function. If there is no such function, that is the failure
and the result is `other`. -/
def body {α : Type} (b : Builder) (id : FunctionId) (other : α)
    (work : Function → α × Builder) : α × Builder :=
  match b.program.function? id with
  | none => (other, b.fail (.unknownFunction id))
  | some f => work f

/-- Entry and exit of a function. -/
def ends (b : Builder) (id : FunctionId) : (BlockId × BlockId) × Builder :=
  b.body id (0, 1) fun f => ((f.entry, f.exit), b)

/-- Add a block to a function; its position, or `none` if there is no such function. -/
def addBlock (b : Builder) (id : FunctionId) (kind : BlockKind) : Option BlockId × Builder :=
  b.body id none fun f =>
    let n := f.blocks.length
    (some n, b.setFunction id { f with blocks := f.blocks ++ [.new n kind] })

/-- Add the edge from one block to another, at both ends. -/
def edge (b : Builder) (id : FunctionId) (source target : BlockId) : Builder :=
  (b.body id () fun f =>
    if source < f.blocks.length then
      if target < f.blocks.length then
        let leaving (s : Block) : Block := { s with successors := s.successors ++ [target] }
        let entering (t : Block) : Block := { t with predecessors := t.predecessors ++ [source] }
        let f := (f.modifyBlock source leaving).modifyBlock target entering
        ((), b.setFunction id f)
      else ((), b.fail (.unknownBlock f.name target))
    else ((), b.fail (.unknownBlock f.name source))).2

/-- Add a statement at the end of a block. Statements are numbered from one, over the
whole program. -/
def add (b : Builder) (id : FunctionId) (block : BlockId) (action : Action) : Builder :=
  (b.body id () fun f =>
    if block < f.blocks.length then
      let s : Statement := ⟨b.statements + 1, action⟩
      let adding (t : Block) : Block := { t with statements := t.statements ++ [s] }
      let b := b.setFunction id (f.modifyBlock block adding)
      ((), { b with statements := b.statements + 1 })
    else ((), b.fail (.unknownBlock f.name block))).2

/-- Attach a ranking function to the entry or a loop head. -/
def rank (b : Builder) (id : FunctionId) (block : BlockId) (ranking : List Expr) : Builder :=
  (b.body id () fun f =>
    match f.block? block with
    | none => ((), b.fail (.unknownBlock f.name block))
    | some t =>
      match t.kind.rank? ranking with
      | none => ((), b.fail (.malformed f.name (.cannotRank block)))
      | some kind => ((), b.setFunction id (f.modifyBlock block fun t => { t with kind }))).2

/-- The finished program, or the first failure. -/
def finish (b : Builder) : Except ProgramError Program := do
  match b.failure with
  | some e => .error e
  | none =>
    b.program.validate
    return b.program

end Builder

end Pathwise
