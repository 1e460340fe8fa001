import Pathwise.Path.Search

/-!
# Pathwise.Path.Walk

The search for basic paths as a walk that shows them to a visitor.

`Function.paths` says which paths a function has. A verifier does not want them all: it
looks at one path at a time, and has seen enough after the first one that fails. So the
search that runs is a walk. It calls a visitor on every path as soon as the path is found,
and the visitor says whether the walk goes on, is to stop, or has failed.

There are three loops in the walk: over the statements of a block (`Program.walkInside`),
over its edges (`Function.walkEdges`), and over the blocks that are entered from it
(`Function.walkSuccessors`). The first two call the visitor, and the third calls the walk
again. The answer is handed up by hand. Each loop tests it after each call and each function
after each loop, since an answer that is not tested in one place would let the walk go on
there, and paths would be shown that nobody asked for. `Pathwise.Proofs.Visitors` proves that
no test is missing: the walk is a visit of the list of all paths.
-/

namespace Pathwise

/-- What a visitor wants next. -/
inductive Flow where
  /-- The next path. -/
  | goOn
  /-- No more paths. -/
  | stop
  deriving DecidableEq, Repr

/-- A visitor is shown one path after the other. At each of them it may change the state of
its monad, and it fails, stops the walk, or goes on. -/
abbrev Visitor (m : Type → Type) := BasicPath → m (Except VerifyError Flow)

variable {m : Type → Type} [Monad m]

/-- Show the paths that end inside the block `b`, before the statements from a list on;
`before` are the statements of the block that come first. -/
def Program.walkInside (p : Program) (see : Visitor m) (r : Run) (b : Block)
    (before : List Statement) : List Statement → m (Except VerifyError Flow)
  | [] => return .ok .goOn
  | s :: rest =>
    match p.obligation? s with
    | .error e => return .error e
    | .ok none => p.walkInside see r b (before ++ [s]) rest
    | .ok (some o) => do
      match ← see ((r.through b before).path o.1 o.2) with
      | .error e => return .error e
      | .ok .stop => return .ok .stop
      | .ok .goOn => p.walkInside see r b (before ++ [s]) rest

namespace Function

/-- Show the paths that end on the edges from the block `b` to the blocks of a list. -/
def walkEdges (f : Function) (see : Visitor m) (r : Run) (b : Block) :
    List BlockId → m (Except VerifyError Flow)
  | [] => return .ok .goOn
  | id :: ids =>
    match f.arrival r b id with
    | .error e => return .error e
    | .ok none => f.walkEdges see r b ids
    | .ok (some q) => do
      match ← see q with
      | .error e => return .error e
      | .ok .stop => return .ok .stop
      | .ok .goOn => f.walkEdges see r b ids

/-- The run `r` when it enters the block `b`. It must not have been in a basic block before,
and takes note of it. -/
def enterBlock (f : Function) (r : Run) (b : Block) : Except VerifyError Run :=
  if b.isLoopHead then .ok r
  else if b.id ∈ r.visited then .error (.graph f.name (.cycle b.label))
  else .ok { r with visited := b.id :: r.visited }

/-- A loop head is entered with the labels of its run as they are. -/
theorem enterBlock_eq_ok {f : Function} {r r' : Run} {b : Block} (h : f.enterBlock r b = .ok r') :
    (b.isLoopHead ∧ r' = r) ∨
      (b.isLoopHead = false ∧ b.id ∉ r.visited ∧ r' = { r with visited := b.id :: r.visited }) := by
  unfold enterBlock at h
  split at h
  · next hb =>
      cases h
      exact Or.inl ⟨hb, rfl⟩
  · next hb =>
      split at h
      · cases h
      · next hv =>
          cases h
          exact Or.inr ⟨by simpa using hb, hv, rfl⟩

-- All three functions work on the same run as long as they are in one block, so the positions
-- and labels that are left are followed by what is to be done before the next block: the
-- calls from a block, the list of its successors, and a loop head that is entered.
mutual

/-- The walk from the end of the block `b`, which the run `r` has just passed: the edges
first, and then the blocks behind them. -/
def walkFrom (f : Function) (p : Program) (see : Visitor m) (r : Run) (b : Block) :
    m (Except VerifyError Flow) :=
  if b.successors.isEmpty then return .error (.graph f.name (.deadEnd b.label))
  else do
    match ← f.walkEdges see r b b.successors with
    | .error e => return .error e
    | .ok .stop => return .ok .stop
    | .ok .goOn => f.walkSuccessors p see r b.successors
termination_by (unseen (List.range f.blocks.length) r.opened, unseen f.labels r.visited,
  b.successors.length + 1)

/-- The walk in the blocks of a list, where the run `r` comes from. A loop head starts a run
of its own, unless the branch has entered it before. -/
def walkSuccessors (f : Function) (p : Program) (see : Visitor m) (r : Run) :
    List BlockId → m (Except VerifyError Flow)
  | [] => return .ok .goOn
  | id :: ids =>
    match hb : f.block? id with
    | none => return .error (.graph f.name (.missingBlock id))
    | some target => do
      let entering : m (Except VerifyError Flow) :=
        match _ : target.kind with
        | .basic => f.walkInto p see r target (List.mem_of_getElem? hb)
        | .loopHead invariant _ =>
          if _ : id ∈ r.opened then return .ok .goOn
          else f.walkInto p see (r.atHead id invariant) target (List.mem_of_getElem? hb)
        | _ => return .ok .goOn
      match ← entering with
      | .error e => return .error e
      | .ok .stop => return .ok .stop
      | .ok .goOn => f.walkSuccessors p see r ids
termination_by ids => (unseen (List.range f.blocks.length) r.opened, unseen f.labels r.visited,
  ids.length)
decreasing_by
  · refine Prod.Lex.right _ (Prod.Lex.right _ ?_)
    simp [Block.isLoopHead, *]
  · refine Prod.Lex.left _ _ (unseen_cons_lt (List.mem_range.2 ?_) (by assumption))
    exact (List.getElem?_eq_some_iff.1 hb).1
  · exact Prod.Lex.right _ (Prod.Lex.right _ (Nat.lt_add_one _))

/-- The walk in the block `b`, which the run `r` comes to: what its statements ask for first,
and then the walk from its end. -/
def walkInto (f : Function) (p : Program) (see : Visitor m) (r : Run) (b : Block)
    (_ : b ∈ f.blocks) : m (Except VerifyError Flow) :=
  match _ : f.enterBlock r b with
  | .error e => return .error e
  | .ok r' => do
    match ← p.walkInside see r' b [] b.statements with
    | .error e => return .error e
    | .ok .stop => return .ok .stop
    | .ok .goOn => f.walkFrom p see (r'.through b b.statements) b
termination_by (unseen (List.range f.blocks.length) r.opened, unseen f.labels r.visited,
  if b.isLoopHead then b.successors.length + 2 else 0)
decreasing_by
  rcases enterBlock_eq_ok (by assumption) with ⟨hhead, rfl⟩ | ⟨_, hv, rfl⟩
  · rw [if_pos hhead]
    exact Prod.Lex.right _ (Prod.Lex.right _ (Nat.lt_add_one _))
  · exact Prod.Lex.right _ (Prod.Lex.left _ _ (unseen_cons_lt (List.mem_map_of_mem ‹_›) hv))

end

/-- Show all basic paths of a function to a visitor, in order of the search, until it stops
or fails. -/
def walk (f : Function) (p : Program) (see : Visitor m) : m (Except VerifyError Flow) :=
  match f.block? f.entry with
  | none => return .error (.graph f.name (.missingBlock f.entry))
  | some entry =>
    match entry.kind with
    | .precondition condition _ =>
      if entry.successors.length ≠ 1 then
        return .error (.graph f.name (.entrySuccessors entry.label entry.successors.length))
      else f.walkFrom p see (.atEntry condition) entry
    | _ => return .error (.graph f.name (.notPrecondition entry.label))

end Function

/-- The visitor that goes on at every path and keeps a list of them. -/
def recorder : Visitor (StateM (List BasicPath)) := fun q => do
  modify (· ++ [q])
  return .ok .goOn

/-- All basic paths of a function in order of the search, or the defect that ends it. -/
def Function.collectPaths (f : Function) (p : Program) : Except VerifyError (List BasicPath) :=
  let found := (f.walk p recorder).run []
  found.1.map fun _ => found.2

end Pathwise
