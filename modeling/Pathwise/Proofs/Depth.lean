import Pathwise.Proofs.Visitors

/-!
# Pathwise.Proofs.Depth

How deep the path search goes.

No counter of the search goes down at every step. A run never enters two basic blocks with the
same label, but the labels that it has met are forgotten when a loop head is entered; only the set
of open heads grows all the time. Labels and positions have nothing to do with each other here, so
the two parts are measured apart: `Function.room` counts the basic labels that are left for the
run and, for every head that is not open, room for a whole run more. What is entered uses up some
of it, whatever the graph.

`Function.Descends` is a branch of the recursion, as a list of the blocks that it enters. The same
bound is stated of the search itself: `Function.pathsWithin` gives up where it would enter too
many blocks one inside the other, and does not come to that.

That the search ends at all is known from its definition, with a measure that need not be small.
The bound here is a product of the number of loop heads and the number of blocks, both plus one,
and it holds of graphs that validation would reject: labels may repeat, and edges may lead
nowhere.
-/

namespace Pathwise

open Stateful

theorem unseen_nil (all : List Nat) : unseen all [] = all.length := by
  simp [unseen]

theorem Trace.concat_congr {α : Type} {f g : α → Trace} {as : List α}
    (h : ∀ a ∈ as, f a = g a) : concat f as = concat g as := by
  induction as with
  | nil => rfl
  | cons a as ih =>
      obtain ⟨ha, has⟩ := List.forall_mem_cons.1 h
      rw [concat, concat, ha, ih has]

namespace Function

/-! ## The search with a limit

The search once more, with the recursive calls as parameters, so that a limit can be tied in.
`cut` is whatever the search would come to at the limit; that the result does not depend on it
says that the limit is not met. -/

/-- The search in a block `c` that the run `r` enters; `next` is the search from its end. A
basic block with a label that the run has met before is a cycle. -/
def searchBlock (f : Function) (p : Program) (next : Run → Block → Trace) (r : Run) (c : Block) :
    Trace :=
  if c.isLoopHead then
    (p.inside r c [] c.statements).append fun _ => next (r.through c c.statements) c
  else if c.id ∈ r.visited then .fail (.graph f.name (.cycle c.label))
  else (p.inside r c [] c.statements).append fun _ => next (r.extend c) c

/-- The search from the end of the block `b`; `enter` is the search in the blocks that it
enters. -/
def searchEdges (f : Function) (enter : Run → Block → Trace) (r : Run) (b : Block) : Trace :=
  if b.successors.isEmpty then .fail (.graph f.name (.deadEnd b.label))
  else
    (Trace.concat (fun id => .ofResult (f.arrival r b id)) b.successors).append fun _ =>
      Trace.concat (fun id =>
        match f.block? id with
        | none => .fail (.graph f.name (.missingBlock id))
        | some target =>
          match target.kind with
          | .basic => enter r target
          | .loopHead invariant _ =>
            if id ∈ r.opened then .done else enter (r.atHead id invariant) target
          | _ => .done) b.successors

/-- The search in a block if at most `limit` blocks may be entered one inside the other, this
one included. Where that is not enough it comes to `cut`. -/
def searchWithin (f : Function) (p : Program) (cut : Trace) : Nat → Run → Block → Trace
  | 0, _, _ => cut
  | limit + 1, r, c => f.searchBlock p (f.searchEdges (f.searchWithin p cut limit)) r c

/-- The search for the paths of a function if at most `limit` blocks may be entered one inside
the other, the entry included. Where that is not enough it comes to `cut`. -/
def pathsWithin (f : Function) (p : Program) (cut : Trace) (limit : Nat) : Trace :=
  match f.block? f.entry with
  | none => .fail (.graph f.name (.missingBlock f.entry))
  | some entry =>
    match entry.kind with
    | .precondition condition _ =>
      if entry.successors.length ≠ 1 then
        .fail (.graph f.name (.entrySuccessors entry.label entry.successors.length))
      else
        match limit with
        | 0 => cut
        | limit + 1 => f.searchEdges (f.searchWithin p cut limit) (.atEntry condition) entry
    | _ => .fail (.graph f.name (.notPrecondition entry.label))

/-! ## Branches

The constructors are the places where the recursion enters a block. A block that closes a cycle is
entered too, although the search fails there, and counts. -/

/-- From a position the recursion enters the blocks at the positions of a list, one inside
the other. -/
inductive Descends (f : Function) : Position → List BlockId → Prop where
  | stop (m : Position) : Descends f m []
  /-- A basic block that is new to the run. -/
  | basic {r : Run} {b c : Block} {j : BlockId} {js : List BlockId} (hj : j ∈ b.successors)
      (hc : f.block? j = some c) (hk : c.kind = .basic) (hv : c.id ∉ r.visited)
      (hr : Descends f (r.extend c, c) js) : Descends f (r, b) (j :: js)
  /-- A basic block with a label that the run has met: the branch ends there. -/
  | cycle {r : Run} {b c : Block} {j : BlockId} (hj : j ∈ b.successors)
      (hc : f.block? j = some c) (hk : c.kind = .basic) (hv : c.id ∈ r.visited) :
      Descends f (r, b) [j]
  /-- A loop head that is not open. -/
  | head {r : Run} {b c : Block} {j : BlockId} {js : List BlockId} {invariant : Expr}
      {ranking : List Expr} (hj : j ∈ b.successors) (hc : f.block? j = some c)
      (hk : c.kind = .loopHead invariant ranking) (ho : j ∉ r.opened)
      (hr : Descends f ((r.atHead j invariant).through c c.statements, c) js) :
      Descends f (r, b) (j :: js)

/-- The blocks that the recursion enters one inside the other, from the entry on. -/
inductive SearchBranch (f : Function) : List BlockId → Prop where
  | entry {e : Block} {condition : Expr} {ranking : List Expr} {js : List BlockId}
      (he : f.block? f.entry = some e) (hk : e.kind = .precondition condition ranking)
      (hr : f.Descends (.atEntry condition, e) js) : SearchBranch f (f.entry :: js)

/-! ## Room

What a run may still enter. The measure is lexicographic in spirit, heads before labels, and is
made a number by giving each head room for all labels. -/

/-- The positions of the loop heads. -/
def headPositions (f : Function) : List BlockId :=
  (f.blocks.zipIdx.filter fun q => q.1.isLoopHead).map Prod.snd

/-- The labels of the basic blocks. -/
def basicLabels (f : Function) : List BlockId :=
  (f.blocks.filter fun b => b.kind matches .basic).map Block.id

/-- How many blocks a run may still enter before it has to repeat one, on its own and in the
runs that it leads to. -/
def room (f : Function) (r : Run) : Nat :=
  unseen f.headPositions r.opened * (f.basicLabels.length + 1) + unseen f.basicLabels r.visited

/-- A bound for the number of blocks that the recursion enters one inside the other. There is one
stretch of blocks for the entry and for each loop head, and a stretch passes no block twice. -/
def searchDepth (f : Function) : Nat :=
  (f.blocks.countP Block.isLoopHead + 1) * (f.blocks.length + 1)

variable {p : Program} {f : Function} {r : Run} {b c : Block} {j : BlockId}

/-- Loop heads are counted by position, so labels that repeat do not matter. -/
theorem length_headPositions (f : Function) :
    f.headPositions.length = f.blocks.countP Block.isLoopHead := by
  rw [headPositions, List.length_map, ← List.countP_eq_length_filter]
  conv_rhs => rw [← List.zipIdx_map_fst 0 f.blocks, List.countP_map]
  rfl

theorem mem_headPositions {invariant : Expr} {ranking : List Expr} (hc : f.block? j = some c)
    (hk : c.kind = .loopHead invariant ranking) : j ∈ f.headPositions := by
  refine List.mem_map.2 ⟨(c, j), List.mem_filter.2 ⟨?_, ?_⟩, rfl⟩
  · exact List.mk_mem_zipIdx_iff_getElem?.2 hc
  · simp [Block.isLoopHead, hk]

theorem mem_basicLabels (hc : f.block? j = some c) (hk : c.kind = .basic) :
    c.id ∈ f.basicLabels := by
  refine List.mem_map_of_mem (List.mem_filter.2 ⟨List.mem_of_getElem? hc, ?_⟩)
  rw [hk]

/-- The entry is not among the basic blocks. -/
theorem length_basicLabels_lt {e : Block} {condition : Expr} {ranking : List Expr}
    (he : f.block? f.entry = some e) (hk : e.kind = .precondition condition ranking) :
    f.basicLabels.length < f.blocks.length := by
  rw [basicLabels, List.length_map]
  refine List.length_filter_lt_length_iff_exists.2 ⟨e, List.mem_of_getElem? he, ?_⟩
  rw [hk]
  exact Bool.false_ne_true

/-- A basic block uses up its label. -/
theorem room_extend_lt (hc : f.block? j = some c) (hk : c.kind = .basic)
    (hv : c.id ∉ r.visited) : f.room (r.extend c) < f.room r :=
  Nat.add_lt_add_left (unseen_cons_lt (mem_basicLabels hc hk) hv) _

/-- A new run may meet all basic labels again, but one head less is left to open. The measure
counts a head for more than all basic labels. -/
theorem room_atHead_lt {invariant : Expr} {ranking : List Expr} (hc : f.block? j = some c)
    (hk : c.kind = .loopHead invariant ranking) (ho : j ∉ r.opened) :
    f.room ((r.atHead j invariant).through c c.statements) < f.room r := by
  have hlt : unseen f.headPositions (j :: r.opened) < unseen f.headPositions r.opened :=
    unseen_cons_lt (mem_headPositions hc hk) ho
  have hroom : f.room ((r.atHead j invariant).through c c.statements) =
      unseen f.headPositions (j :: r.opened) * (f.basicLabels.length + 1) +
        f.basicLabels.length := congrArg (_ + ·) (unseen_nil _)
  calc f.room ((r.atHead j invariant).through c c.statements)
      < (unseen f.headPositions (j :: r.opened) + 1) * (f.basicLabels.length + 1) := by
        rw [hroom, Nat.add_one_mul]
        omega
    _ ≤ unseen f.headPositions r.opened * (f.basicLabels.length + 1) :=
        Nat.mul_le_mul_right _ hlt
    _ ≤ f.room r := Nat.le_add_right _ _

/-- There is room for all entered blocks, the entry and the block that closes a cycle
included. -/
theorem room_atEntry_le {e : Block} {condition : Expr} {ranking : List Expr}
    (he : f.block? f.entry = some e) (hk : e.kind = .precondition condition ranking) :
    f.room (.atEntry condition) + 2 ≤ f.searchDepth := by
  have hroom : f.room (.atEntry condition) =
      f.blocks.countP Block.isLoopHead * (f.basicLabels.length + 1) + f.basicLabels.length := by
    show unseen f.headPositions [] * (f.basicLabels.length + 1) + unseen f.basicLabels [] = _
    rw [unseen_nil, unseen_nil, length_headPositions]
  have hlt := length_basicLabels_lt he hk
  have hheads : f.blocks.countP Block.isLoopHead * (f.basicLabels.length + 1) ≤
      f.blocks.countP Block.isLoopHead * (f.blocks.length + 1) :=
    Nat.mul_le_mul_left _ (by omega)
  rw [hroom, searchDepth, Nat.add_one_mul]
  omega

/-- A branch uses up the room of its position, and may end in one block more. -/
theorem Descends.length_le {m : Position} {js : List BlockId} (h : f.Descends m js) :
    js.length ≤ f.room m.1 + 1 := by
  induction h with
  | stop m => exact Nat.zero_le _
  | basic _ hc hk hv _ ih =>
      have hlt := room_extend_lt hc hk hv
      rw [List.length_cons]
      dsimp only at ih ⊢
      omega
  | cycle => exact Nat.le_add_left _ _
  | head _ hc hk ho _ ih =>
      have hlt := room_atHead_lt hc hk ho
      rw [List.length_cons]
      dsimp only at ih ⊢
      omega

/-! ## The limit is out of reach

The search with a limit is the search, as long as the limit is larger than the room. By induction
on the limit, since this is what the definition recurses on. -/

/-- The search satisfies the equation that the search with a limit is made of. -/
theorem fanOut_eq_searchEdges (f : Function) (p : Program) (r : Run) (b : Block) :
    f.fanOut p r b = f.searchEdges (f.searchBlock p (f.fanOut p)) r b := by
  rw [fanOut_eq, searchEdges]
  congr 3
  funext _
  refine Trace.concat_congr fun j _ => ?_
  cases hc : f.block? j with
  | none => simp only [beyond, hc]
  | some c =>
      cases hk : c.kind with
      | basic => simp [beyond_basic hc hk, searchBlock, Block.isLoopHead, hk]
      | loopHead invariant ranking =>
          simp [beyond_head hc hk, searchBlock, Block.isLoopHead, hk]
      | _ => simp only [beyond, hc, hk]

/-- What is entered over the edges of a block decides the search from its end. -/
theorem searchEdges_congr {enter enter' : Run → Block → Trace}
    (hbasic : ∀ j ∈ b.successors, ∀ c, f.block? j = some c → c.kind = .basic →
      enter r c = enter' r c)
    (hhead : ∀ j ∈ b.successors, ∀ c invariant ranking, f.block? j = some c →
      c.kind = .loopHead invariant ranking → j ∉ r.opened →
      enter (r.atHead j invariant) c = enter' (r.atHead j invariant) c) :
    f.searchEdges enter r b = f.searchEdges enter' r b := by
  unfold searchEdges
  congr 2
  funext _
  refine Trace.concat_congr fun j hj => ?_
  cases hc : f.block? j with
  | none => rfl
  | some c =>
      cases hk : c.kind with
      | basic => simpa only [hk] using hbasic j hj c hc hk
      | loopHead invariant ranking =>
          simp only [hk]
          split
          · rfl
          · next ho => exact hhead j hj c invariant ranking hc hk ho
      | _ => simp only [hk]

/-- The search from a position never enters more blocks than there is room for, and one. A limit
that is at least this makes no difference, whatever is put where it cuts off. -/
theorem searchEdges_searchWithin (cut : Trace) {limit : Nat} (h : f.room r + 1 ≤ limit) :
    f.searchEdges (f.searchWithin p cut limit) r b = f.fanOut p r b := by
  induction limit generalizing r b with
  | zero => omega
  | succ limit ih =>
      rw [fanOut_eq_searchEdges]
      refine searchEdges_congr (fun j _ c hc hk => ?_) (fun j _ c invariant ranking hc hk ho => ?_)
      · have hno : ¬ c.isLoopHead = true := by simp [Block.isLoopHead, hk]
        rw [searchWithin, searchBlock, searchBlock, if_neg hno, if_neg hno]
        split
        · rfl
        · next hv =>
            have hlt := room_extend_lt hc hk hv
            rw [ih (by omega)]
      · have hyes : c.isLoopHead = true := by simp [Block.isLoopHead, hk]
        have hlt := room_atHead_lt hc hk ho
        rw [searchWithin, searchBlock, searchBlock, if_pos hyes, if_pos hyes, ih (by omega)]

/-- At the depth given by the size of the graph, the limit makes no difference. -/
theorem pathsWithin_eq (f : Function) (p : Program) (cut : Trace) :
    f.pathsWithin p cut f.searchDepth = f.paths p := by
  unfold pathsWithin paths
  cases he : f.block? f.entry with
  | none => rfl
  | some e =>
      cases hk : e.kind with
      | precondition condition ranking =>
          have hroom := room_atEntry_le he hk
          obtain ⟨limit, hlimit⟩ : ∃ limit, f.searchDepth = limit + 1 :=
            Nat.exists_eq_add_one.2 (by omega)
          simp only [hk, hlimit]
          rw [searchEdges_searchWithin cut (by omega)]
      | _ => simp only [hk]

/-- Branches from the entry stay within that depth. -/
theorem SearchBranch.length_le {js : List BlockId} (h : f.SearchBranch js) :
    js.length ≤ f.searchDepth := by
  obtain ⟨he, hk, hr⟩ := h
  have hroom := room_atEntry_le he hk
  have hlength := hr.length_le
  rw [List.length_cons]
  dsimp only at hlength
  omega

end Function

/-! ## The walk ends

The bound, for branches, for the search and for the walk with a visitor. -/

/-- The search ends on every function, however malformed. No branch of its recursion enters
more than `(heads + 1) * (blocks + 1)` blocks, entry and repeated blocks included; so the
search that gives up beyond this depth finds the same paths and ends in the same way,
whatever giving up would come to; and the walk with a visitor that always goes on shows it the
paths of a list and comes to its end, or to the defect. -/
theorem search_depth_bounded (f : Function) (p : Program) :
    (∀ js, f.SearchBranch js →
      js.length ≤ (f.blocks.countP Block.isLoopHead + 1) * (f.blocks.length + 1)) ∧
    (∀ cut, f.pathsWithin p cut ((f.blocks.countP Block.isLoopHead + 1) * (f.blocks.length + 1)) =
      f.paths p) ∧
    ∀ {W : Type} {m : Type → Type} [Monad m] [Stateful m W] (see : Visitor m),
      (∀ q (w : W), (run (see q) w).1 = .ok .goOn) → ∀ w : W, ∃ w',
        Trace.GoesOn see w (f.paths p).toList w' ∧
        (run (f.walk p see) w = (.ok .goOn, w') ∨
          ∃ e, run (f.walk p see) w = (.error e, w')) := by
  refine ⟨fun js h => h.length_le, fun cut => f.pathsWithin_eq p cut, ?_⟩
  intro W m _ _ see hsee w
  obtain ⟨w', hgoes⟩ := Trace.goesOn_of_always hsee w (f.paths p).toList
  have hends := Function.run_walk_iff.2 (.finished hgoes)
  refine ⟨w', hgoes, ?_⟩
  cases houtcome : (f.paths p).outcome with
  | ok u =>
      rw [houtcome] at hends
      exact Or.inl hends
  | error e =>
      rw [houtcome] at hends
      exact Or.inr ⟨e, hends⟩

namespace Tangle

/-- A cycle of basic blocks around a loop head that it does not need, with labels that are
not the positions. -/
def tangle : Function := ⟨"tangle", 0, [], [], 0, 9, [
  ⟨4, .precondition (.bool true) [], [], [1], []⟩,
  ⟨1, .loopHead (.bool true) [], [], [2], []⟩,
  ⟨7, .basic, [], [3, 1], []⟩,
  ⟨2, .basic, [], [2], []⟩]⟩

end Tangle

/-- The branch that meets the block at position two again enters five blocks, of ten at
most. -/
theorem search_depth_bounded_tangle :
    Tangle.tangle.SearchBranch [0, 1, 2, 3, 2] ∧
      [0, 1, 2, 3, 2].length ≤
        (Tangle.tangle.blocks.countP Block.isLoopHead + 1) * (Tangle.tangle.blocks.length + 1) ∧
      (Tangle.tangle.blocks.countP Block.isLoopHead + 1) * (Tangle.tangle.blocks.length + 1) =
        10 := by
  have hbranch : Tangle.tangle.SearchBranch [0, 1, 2, 3, 2] := by
    refine .entry rfl rfl ?_
    refine .head List.mem_cons_self rfl rfl (by decide) ?_
    refine .basic List.mem_cons_self rfl rfl (by decide) ?_
    refine .basic List.mem_cons_self rfl rfl (by decide) ?_
    exact .cycle List.mem_cons_self rfl rfl (by decide)
  exact ⟨hbranch, (search_depth_bounded Tangle.tangle {}).1 _ hbranch, by decide⟩

end Pathwise
