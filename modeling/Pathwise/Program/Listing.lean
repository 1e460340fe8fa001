import Pathwise.Program.Basic

/-!
# Pathwise.Program.Listing

Programs as listings: predicates and functions with their blocks, edges, annotations and
statements.

A listing is for people to read and is not read back; `Pathwise.Program.Json` is the form that is.
It can be made of any program, also of one that is not well formed: an edge to a block that does
not exist shows the number of the block, and a call of a function that does not exist that of the
function.
-/

namespace Pathwise

/-- An indented line. -/
def tabbed (text : String) : String := "\t" ++ text ++ "\n"

/-- The lines of a ranking function, none if it is empty. The last component has no
comma. -/
def rankingText (ranking : List Expr) : String :=
  if ranking.isEmpty then ""
  else
    "\t#rankingfunction\n\t(\n\t\t" ++ ",\n\t\t".intercalate (ranking.map Expr.text) ++ "\n\t)\n"

/-- A line of edges: a word and the labels of blocks of `f`. -/
def Function.edgesText (f : Function) (word : String) (ids : List BlockId) : String :=
  let label (id : BlockId) := match f.block? id with
    | some b => b.label
    | none => blockIdText id
  tabbed (word ++ ":" ++ String.join (ids.map fun id => " " ++ label id))

def Program.statementText (p : Program) (s : Statement) : String :=
  match s.action with
  | .assign target value => tabbed ("(" ++ target.text ++ ") := " ++ value.text)
  | .store array index value =>
    let elem := array.ty.element?.getD array.ty
    tabbed ("(" ++ array.name ++ "[" ++ index.text ++ "]: " ++ elem.text ++ ") := " ++ value.text)
  | .call targets id args =>
    let callee := match p.function? id with
      | some f => f.name
      | none => functionIdText id
    let binders := String.join (targets.map fun v => "(" ++ v.text ++ ") := ")
    tabbed (binders ++ callee ++ "(" ++ ", ".intercalate (args.map Expr.text) ++ ")")
  | .assert condition => tabbed ("@assert " ++ condition.text)
  | .assume condition => tabbed ("assume " ++ condition.text)

/-- The lines of a block. The entry has no predecessors to list, the exit no
successors. -/
def Program.blockText (p : Program) (f : Function) (b : Block) : String :=
  let ins := f.edgesText "predecessors" b.predecessors
  let outs := f.edgesText "successors" b.successors
  let annotations := match b.kind with
    | .precondition condition ranking =>
      outs ++ tabbed ("@pre " ++ condition.text) ++ rankingText ranking
    | .postcondition condition => ins ++ tabbed ("@post " ++ condition.text)
    | .basic => ins ++ outs
    | .loopHead invariant ranking =>
      ins ++ outs ++ tabbed ("@invariant " ++ invariant.text) ++ rankingText ranking
  b.label ++ ":\n" ++ annotations ++ String.join (b.statements.map p.statementText)

def Program.functionText (p : Program) (f : Function) : String :=
  "[function] " ++ f.name ++ "(" ++ Variable.textList f.parameters ++ ") -> (" ++
    Variable.textList f.results ++ ")\n" ++ String.join (f.blocks.map (p.blockText f))

def Predicate.listing (q : Predicate) : String :=
  "[predicate] " ++ q.name ++ "(" ++ Variable.textList q.parameters ++ ")\n" ++ tabbed q.body.text

/-- The listing of a program, with an empty line after each part. -/
def Program.listing (p : Program) : String :=
  String.join (p.predicates.map fun q => q.listing ++ "\n") ++
    String.join (p.functions.map fun f => p.functionText f ++ "\n")

end Pathwise
