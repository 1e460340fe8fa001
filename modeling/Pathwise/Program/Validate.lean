import Pathwise.Program.Error
import Pathwise.Unseen

/-!
# Pathwise.Program.Validate

The structural checks on a program.

`Program.validate` reports the first defect in a fixed order: repeated names, then the predicates,
then the functions. A function is checked block by block (label, edges, annotations, statements),
then at its entry and exit, and last for blocks that the entry does not reach. That every cycle
passes through a loop head is not checked here; the path search finds such cycles.

What validation leaves open matters as much. It looks at types and at the shape of graphs, and
hardly at names: variables of one function may share a name, a caller may assign what its callee
calls local, arrays may share their length, and a variable of array type need not have a length.
The theory names these conditions where it needs them (`Pathwise.Proofs.Hygiene`), and shows by
examples that it does.
-/

namespace Pathwise

/-- The first name that occurs earlier in the list or in `seen`. -/
def firstRepeated? (seen : List String) : List String → Option String
  | [] => none
  | x :: xs => if x ∈ seen then some x else firstRepeated? (x :: seen) xs

/-- Fail with `err` unless the condition holds. -/
def require {ε : Type} (condition : Bool) (err : ε) : Except ε Unit :=
  if condition then .ok () else .error err

/-- The value, or `err` in its absence. -/
def getOr {ε α : Type} (x : Option α) (err : ε) : Except ε α :=
  match x with
  | some a => .ok a
  | none => .error err

/-! ## Predicates

A predicate is closed: what its body mentions are parameters and their lengths. The body is
checked as any formula of the program is, so it may apply other predicates, but not the predicate
itself. Longer circles are not looked for. -/

/-- The names a predicate's body may mention: its parameters and their lengths. -/
def Predicate.allowedNames (q : Predicate) : List String :=
  q.parameters.flatMap fun v => v.name :: (v.length?.map Variable.name).toList

/-- The first defect of a predicate. -/
def Program.validatePredicate (p : Program) (q : Predicate) : Except ProgramError Unit := do
  let malformed := ProgramError.malformedPredicate q.name
  let sig ← getOr (p.types.get? q.sig) (malformed (.unknownSignature q.sig))
  require (sig.params = q.parameters.map Variable.ty && sig.returns = [.bool])
    (malformed (.signatureMismatch sig))
  match p.check q.body with
  | .error fault => .error (malformed (.illTyped fault))
  | .ok found => require (found = .bool) (malformed (.bodyType found))
  require (q.name ∉ q.body.predicateNames) (malformed .recursive)
  match q.body.freeVariables.keys.find? (· ∉ q.allowedNames) with
  | some name => .error (malformed (.freeVariable name))
  | none => .ok ()

/-! ## Functions

A function is checked in the program that it belongs to, since its calls refer to other functions
and its formulas to predicates. Contracts are trusted at calls: only their types are compared. -/

/-- Check that an expression of function `f` has the type its place asks for. -/
def Program.expectType (p : Program) (f : Function) (e : Expr) (expected : Ty)
    (context : TypeContext) : Except ProgramError Unit :=
  match p.check e with
  | .error fault => .error (.malformed f.name (.illTyped fault))
  | .ok found =>
    require (found = expected) (.typeMismatch f.name context expected found)

namespace Function

/-- Each edge at a block must be recorded at its other end as well. -/
def validateEdges (f : Function) (b : Block) : Except ProgramError Unit := do
  b.successors.forM fun id => do
    let target ← getOr (f.block? id) (.unknownBlock f.name id)
    require (b.id ∈ target.predecessors)
      (.malformed f.name (.missingPredecessor b.label target.label))
  b.predecessors.forM fun id => do
    let source ← getOr (f.block? id) (.unknownBlock f.name id)
    require (b.id ∈ source.successors)
      (.malformed f.name (.missingSuccessor source.label b.label))

/-- The entry is a precondition block with one way out, the exit a postcondition
block with a way in. -/
def validateEnds (f : Function) : Except ProgramError Unit := do
  let entry ← getOr (f.block? f.entry) (.unknownBlock f.name f.entry)
  match entry.kind with
  | .precondition _ _ => .ok ()
  | _ => .error (.malformed f.name (.notPrecondition entry.label))
  require (entry.predecessors.isEmpty && entry.successors.length = 1 && entry.statements.isEmpty)
    (.malformed f.name (.entryShape entry.label))
  let exit ← getOr (f.block? f.exit) (.unknownBlock f.name f.exit)
  match exit.kind with
  | .postcondition _ => .ok ()
  | _ => .error (.malformed f.name (.notPostcondition exit.label))
  require (exit.successors.isEmpty && exit.statements.isEmpty)
    (.malformed f.name (.exitShape exit.label))
  require (!exit.predecessors.isEmpty) (.malformed f.name (.exitUnreachable exit.label))

/-- The positions that `todo` leads to, added to the ones already `seen`. Positions
out of range lead nowhere. -/
def reach (f : Function) (seen todo : List BlockId) : List BlockId :=
  match todo with
  | [] => seen
  | id :: rest =>
    if _ : id ∈ seen then f.reach seen rest
    else
      match _ : f.block? id with
      | none => f.reach seen rest
      | some b => f.reach (id :: seen) (b.successors ++ rest)
-- a position that is met for the first time makes the first component smaller, and all others the
-- second
termination_by (unseen (List.range f.blocks.length) seen, todo.length)
decreasing_by
  · exact Prod.Lex.right _ (by simp)
  · exact Prod.Lex.right _ (by simp)
  · refine Prod.Lex.left _ _ (unseen_cons_lt (List.mem_range.2 ?_) (by assumption))
    exact (List.getElem?_eq_some_iff.1 (by assumption)).1

/-- The positions of the blocks that the entry leads to. -/
def reachable (f : Function) : List BlockId := f.reach [] [f.entry]

/-- Every block must be reachable from the entry. -/
def validateReachability (f : Function) : Except ProgramError Unit :=
  let reached := f.reachable
  match f.blocks.zipIdx.find? fun (_, i) => i ∉ reached with
  | some (b, _) => .error (.malformed f.name (.unreachable b.label))
  | none => .ok ()

end Function

namespace Program

/-- The annotations of a block have the types they need, and only entry and exit are
precondition and postcondition blocks. -/
def validateKind (p : Program) (f : Function) (b : Block) : Except ProgramError Unit :=
  match b.kind with
  | .precondition condition ranking => do
    require (b.id = f.entry) (.malformed f.name (.strayPrecondition b.label))
    p.expectType f condition .bool .precondition
    ranking.forM fun e => p.expectType f e .int .rankingFunction
  | .postcondition condition => do
    require (b.id = f.exit) (.malformed f.name (.strayPostcondition b.label))
    p.expectType f condition .bool .postcondition
  | .basic => .ok ()
  | .loopHead invariant ranking => do
    p.expectType f invariant .bool (.invariant b.label)
    ranking.forM fun e => p.expectType f e .int .rankingFunction

/-- The first defect of a statement. Calls are checked against the interface of the callee:
arguments by the types of the parameters, and targets by the types of the results. -/
def validateStatement (p : Program) (f : Function) (s : Statement) : Except ProgramError Unit :=
  match s.action with
  | .assign target value => do
    require target.isAssignable (.malformed f.name (.assignedQuantified target.name))
    p.expectType f value target.ty (.assignment target.name)
  | .store array index value => do
    let elem ← getOr (if array.isArray then array.ty.element? else none)
      (.malformed f.name (.notArray array.name))
    p.expectType f index .int .arrayIndex
    p.expectType f value elem (.store array.name)
  | .call targets id args => do
    let callee ← getOr (p.function? id) (.unknownFunction id)
    require (callee.parameters.length = args.length)
      (.malformed f.name (.callArguments callee.name args.length callee.parameters.length))
    require (callee.results.length = targets.length)
      (.malformed f.name (.callResults callee.name targets.length callee.results.length))
    (callee.parameters.zip args).forM fun (v, e) => p.expectType f e v.ty (.argument v.name)
    (callee.results.zip targets).forM fun (r, v) => do
      require v.isAssignable (.malformed f.name (.assignedQuantified v.name))
      require (r.ty = v.ty) (.typeMismatch f.name (.result callee.name) v.ty r.ty)
  | .assert condition => p.expectType f condition .bool .assertion
  | .assume condition => p.expectType f condition .bool .assumption

/-- The first defect of the block at a position. -/
def validateBlock (p : Program) (f : Function) (b : Block) (position : Nat) :
    Except ProgramError Unit := do
  require (b.id = position) (.malformed f.name (.mislabelled position b.id))
  f.validateEdges b
  p.validateKind f b
  b.statements.forM (p.validateStatement f)

/-- The first defect of a function. -/
def validateFunction (p : Program) (f : Function) : Except ProgramError Unit := do
  let sig ← getOr (p.types.get? f.sig) (.malformed f.name (.unknownSignature f.sig))
  require
    (sig.params = f.parameters.map Variable.ty && sig.returns = f.results.map Variable.ty)
    (.malformed f.name (.signatureMismatch sig))
  f.blocks.zipIdx.forM fun (b, i) => p.validateBlock f b i
  f.validateEnds
  f.validateReachability

/-- The first defect of a program. -/
def validate (p : Program) : Except ProgramError Unit := do
  match firstRepeated? [] (p.functions.map Function.name ++ p.predicates.map Predicate.name) with
  | some name => .error (.duplicate name)
  | none => .ok ()
  p.predicates.forM p.validatePredicate
  p.functions.forM p.validateFunction

end Program

end Pathwise
