import Pathwise.Path.Binding
import Pathwise.Path.Trace

/-!
# Pathwise.Path.Search

The depth-first search for the basic paths of a function.

At a block the obligations of its edges come first: an edge to the exit has to show the
postcondition, an edge to a loop head its invariant. Then the successors are explored in order. A
basic block extends the current run; a loop head that is not open yet starts a run of its own and
is open on that branch from then on. The order of paths is therefore fixed by the successor lists.

The search ends on every graph. A run never meets a basic block twice, and every new run opens a
loop head that was not open before (`Function.fanOut`).

This is the search as a value: `Function.paths` is the trace of all paths and of the defect at its
end, if there is one. Whether a loop head is met on entry or after a round is read off the branch,
so a head that two branches lead to is explored on each of them, and its paths occur once for
each.

What runs is the walk of `Pathwise.Path.Walk`, which follows the same order and stops when its
visitor does. The theory is about this trace.
-/

namespace Pathwise

/-- The run of blocks that a branch of the search is extending. Besides what the path will consist
of, it has what decides where the branch may go: the blocks of the run, and the loop heads of the
branch. -/
structure Run where
  start : PathStart
  /-- What is known there. -/
  known : Expr
  segments : List Segment
  /-- The ids of the basic blocks so far. -/
  visited : List BlockId
  /-- The positions of the loop heads entered on this branch, innermost first. -/
  opened : List BlockId

namespace Run

/-- The run from the entry of a function. -/
def atEntry (condition : Expr) : Run := ⟨.precondition, condition, [], [], []⟩

/-- The run from the loop head at position `id`, inside the loops of `r`. -/
def atHead (r : Run) (id : BlockId) (invariant : Expr) : Run :=
  ⟨.loopHead id, invariant, [], [], id :: r.opened⟩

/-- The run with the block `b` and the given part of its statements at the end. -/
def through (r : Run) (b : Block) (statements : List Statement) : Run :=
  { r with segments := r.segments ++ [⟨b.id, statements⟩] }

/-- The run with the basic block `b` at the end. -/
def extend (r : Run) (b : Block) : Run :=
  { r.through b b.statements with visited := b.id :: r.visited }

/-- The path that ends here. -/
def path (r : Run) (obligation : Expr) (kind : ObligationKind) : BasicPath :=
  ⟨r.start, r.known, r.segments, obligation, kind⟩

end Run

/-- What has to be shown just before a statement, if anything: an assertion itself, and
the precondition of a callee for the arguments at hand. A precondition that is literally
true is not worth a path. -/
def Program.obligation? (p : Program) (s : Statement) :
    Except VerifyError (Option (Expr × ObligationKind)) :=
  match s.action with
  | .assert condition => .ok (some (condition, .assertion s.ordinal))
  | .call _ id args => do
    let callee ← getOr (p.function? id) (.unknownFunction id)
    let condition ← getOr callee.precondition? (.graph callee.name .missingPrecondition)
    match condition with
    | .bool true => return none
    | condition =>
      let σ ← callee.bind args
      return some (condition.substAll σ, .callPrecondition s.ordinal callee.name)
  | _ => .ok none

/-- The paths that end inside the block `b`, before the statements from `rest` on;
`before` are the statements of the block that come first. -/
def Program.inside (p : Program) (r : Run) (b : Block) (before : List Statement) :
    List Statement → Trace
  | [] => .done
  | s :: rest =>
    let found := (p.obligation? s).map fun o =>
      o.map fun (obligation, kind) => (r.through b before).path obligation kind
    (Trace.ofResult found).append fun _ => p.inside r b (before ++ [s]) rest

namespace Function

/-- The path that ends on the edge from `b` to the block at position `id`. -/
def arrival (f : Function) (r : Run) (b : Block) (id : BlockId) :
    Except VerifyError (Option BasicPath) := do
  let target ← getOr (f.block? id) (.graph f.name (.missingBlock id))
  match target.kind with
  | .postcondition condition => return some (r.path condition .postcondition)
  | .loopHead invariant _ =>
    return some (r.path invariant (if id ∈ r.opened then .maintained id else .established id))
  | .precondition _ _ => .error (.graph f.name (.entryReached target.label b.label))
  | .basic => return none

/-- The ids that the blocks of a function carry. -/
def labels (f : Function) : List BlockId := f.blocks.map Block.id

/-- The search from the end of the block `b`, which the run `r` has just passed.

Each step into a basic block leaves fewer ids that the run has not visited, and each step
into a loop head leaves fewer positions that the branch has not opened; so the search
ends, whatever the graph. -/
def fanOut (f : Function) (p : Program) (r : Run) (b : Block) : Trace :=
  if b.successors.isEmpty then .fail (.graph f.name (.deadEnd b.label))
  else
    (Trace.concat (fun id => .ofResult (f.arrival r b id)) b.successors).append fun _ =>
      Trace.concat (fun id =>
        match _ : f.block? id with
        | none => .fail (.graph f.name (.missingBlock id))
        | some target =>
          match target.kind with
          | .basic =>
            if _ : target.id ∈ r.visited then
              .fail (.graph f.name (.cycle target.label))
            else
              (p.inside r target [] target.statements).append fun _ =>
                f.fanOut p (r.extend target) target
          | .loopHead invariant _ =>
            if _ : id ∈ r.opened then .done
            else
              let r := r.atHead id invariant
              (p.inside r target [] target.statements).append fun _ =>
                f.fanOut p (r.through target target.statements) target
          | _ => .done) b.successors
termination_by (unseen (List.range f.blocks.length) r.opened, unseen f.labels r.visited)
decreasing_by
  -- a basic block: its label is new to the run, and no loop head is opened
  · refine Prod.Lex.right _ (unseen_cons_lt ?_ (by assumption))
    exact List.mem_map_of_mem (List.mem_of_getElem? (by assumption))
  -- a loop head: the run starts afresh, with one more position open
  · refine Prod.Lex.left _ _ (unseen_cons_lt (List.mem_range.2 ?_) (by assumption))
    exact (List.getElem?_eq_some_iff.1 (by assumption)).1

/-- All basic paths of a function, in order of the search. -/
def paths (f : Function) (p : Program) : Trace :=
  match f.block? f.entry with
  | none => .fail (.graph f.name (.missingBlock f.entry))
  | some entry =>
    match entry.kind with
    | .precondition condition _ =>
      if entry.successors.length ≠ 1 then
        .fail (.graph f.name (.entrySuccessors entry.label entry.successors.length))
      else f.fanOut p (.atEntry condition) entry
    | _ => .fail (.graph f.name (.notPrecondition entry.label))

end Function

end Pathwise
