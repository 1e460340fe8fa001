import Pathwise.Expr.Subst
import Pathwise.Signature

/-!
# Pathwise.Program.Basic

Annotated control-flow graphs.

A program is a list of functions and a list of predicates over one table of signatures. A function
is a graph of blocks, addressed by position. Four kinds of block carry the annotations: the entry
holds the precondition, the exit the postcondition, a loop head its invariant, and a basic block
none. The statements of a block run in order; branching is nondeterministic choice of a successor,
with the branch conditions as `assume` statements.

Nothing here requires a graph to be well formed: ids may be out of range and labels may disagree
with positions. `Pathwise.Program.Validate` says what well formed means.

Edges are stored twice, at the block they leave and at the block they enter. The search for paths
follows successors only, and takes the order in which they are listed as the order of exploration;
predecessors are there for the checks and the listing.
-/

namespace Pathwise

/-- Position of a block in its function. -/
abbrev BlockId := Nat

/-- Position of a function in its program. -/
abbrev FunctionId := Nat

/-- What a statement does. -/
inductive Action where
  /-- The assignment `target := value`. -/
  | assign (target : Variable) (value : Expr)
  /-- The store `array[index] := value`. -/
  | store (array : Variable) (index value : Expr)
  /-- Call `callee`; `targets` receive its results by position. -/
  | call (targets : List Variable) (callee : FunctionId) (args : List Expr)
  /-- A proof obligation at this point. -/
  | assert (condition : Expr)
  /-- A fact known at this point. -/
  | assume (condition : Expr)
  deriving Inhabited

/-- A statement with the number that messages refer to it by. -/
structure Statement where
  /-- Number for messages, without meaning for the logic. -/
  ordinal : Nat
  action : Action
  deriving Inhabited

/-- The role of a block and its annotations. Ranking functions are carried along and
checked to be integers; nothing is proved about them. -/
inductive BlockKind where
  /-- Entry of a function. -/
  | precondition (condition : Expr) (ranking : List Expr)
  /-- Exit of a function. -/
  | postcondition (condition : Expr)
  /-- No annotations. -/
  | basic
  /-- Head of a loop. Its statements run on every iteration. -/
  | loopHead (invariant : Expr) (ranking : List Expr)
  deriving Inhabited

/-- A node of the control-flow graph. -/
structure Block where
  /-- The position the block is labelled with. -/
  id : BlockId
  kind : BlockKind
  /-- Blocks with an edge to this one. -/
  predecessors : List BlockId
  /-- Blocks this one has an edge to, in order of exploration. -/
  successors : List BlockId
  statements : List Statement
  deriving Inhabited

namespace Block

/-- A block without edges and statements. -/
def new (id : BlockId) (kind : BlockKind) : Block := ⟨id, kind, [], [], []⟩

def isLoopHead (b : Block) : Bool :=
  match b.kind with
  | .loopHead _ _ => true
  | _ => false

/-- The label in messages and listings, for instance `_LOOPHEAD#3`. -/
def label (b : Block) : String :=
  let word := match b.kind with
    | .precondition _ _ => "_PRECOND"
    | .postcondition _ => "_POSTCOND"
    | .basic => "_BASIC"
    | .loopHead _ _ => "_LOOPHEAD"
  word ++ "#" ++ toString b.id

end Block

/-- A function: its interface and its graph. The results are variables, which have to be assigned
before the exit; there is no statement that returns. -/
structure Function where
  name : String
  /-- Number of its signature. -/
  sig : SigId
  parameters : List Variable
  /-- The variables whose values at the exit are the results. -/
  results : List Variable
  entry : BlockId
  exit : BlockId
  /-- The blocks, addressed by position. -/
  blocks : List Block
  deriving Inhabited

namespace Function

/-- The block at a position. -/
def block? (f : Function) (id : BlockId) : Option Block := f.blocks[id]?

/-- The precondition, if the entry is a block that has one. -/
def precondition? (f : Function) : Option Expr :=
  match f.block? f.entry with
  | some ⟨_, .precondition condition _, _, _, _⟩ => some condition
  | _ => none

/-- The postcondition, if the exit is a block that has one. -/
def postcondition? (f : Function) : Option Expr :=
  match f.block? f.exit with
  | some ⟨_, .postcondition condition, _, _, _⟩ => some condition
  | _ => none

end Function

/-- A named formula that annotations may apply. The body is about the parameters and the lengths
of those that are arrays, and about nothing else. -/
structure Predicate where
  name : String
  /-- Number of its signature. -/
  sig : SigId
  parameters : List Variable
  /-- The defining formula. -/
  body : Expr
  deriving Inhabited

structure Program where
  /-- The signatures of its functions and predicates. -/
  types : SignatureTable := .empty
  /-- The functions, addressed by position. -/
  functions : List Function := []
  predicates : List Predicate := []
  deriving Inhabited

namespace Program

/-- The function at a position. -/
def function? (p : Program) (id : FunctionId) : Option Function := p.functions[id]?

/-- The first function of a name. -/
def functionNamed? (p : Program) (name : String) : Option Function :=
  p.functions.find? fun f => f.name = name

/-- The first predicate of a name. -/
def predicate? (p : Program) (name : String) : Option Predicate :=
  p.predicates.find? fun q => q.name = name

end Program

/-! ## Ids in messages

Numbers that are out of range cannot be shown by the name of what they stand for, so messages show
them as they are. -/

/-- A block id in a message. -/
def blockIdText (id : BlockId) : String := "BlockId(" ++ toString id ++ ")"

/-- A function id in a message. -/
def functionIdText (id : FunctionId) : String := "FunctionId(" ++ toString id ++ ")"

/-- A signature number in a message. -/
def sigIdText (id : SigId) : String := "SigId(" ++ toString id ++ ")"

end Pathwise
