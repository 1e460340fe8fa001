import Pathwise.Proofs.Routes

/-!
# Pathwise.Proofs.Dominance

Which edges into a loop head go around the loop.

The search asks whether the head is open on its branch. A head is never closed again, not even
when the branch leaves the loop, so it could well be open on an edge that enters the loop anew. In
functions with natural loops it is not: from the open head on, the branch and the edge are a
closed walk, and the head that dominates this walk lies on the branch once only, so it is the open
head itself.

So the search, which knows nothing of dominators, tells the edges that enter a loop from those
that go around it as a compiler would: an invariant is maintained on an edge whose source is
dominated by the head, and established on any other (`invariant_kind_by_dominance`). Where loops
are not natural the answer depends on the branch on which the edge is met.

`Function.Branch` is what the proof needs to know of the search: the blocks that it has passed
form a route from the entry, on which the open heads are the loop heads, in the same order and
without repetition.
-/

namespace Pathwise

/-- The block that a path ends in, or the entry if the path passes no block. -/
def BasicPath.source (q : BasicPath) (f : Function) : BlockId :=
  match q.segments.getLast? with
  | some segment => segment.block
  | none => f.entry

namespace Function

variable {p : Program} {f : Function} {m n : Position} {l : List BlockId}

/-! ## Branches of the search

The invariant of the search, by induction along its positions. It joins the open heads, which the
run keeps, to the route, which it does not. -/

/-- The search is at a position after a branch of which `l` are the blocks: a route from the
entry, on which the open loop heads are the loop heads, each of them once. -/
structure Branch (f : Function) (m : Position) (l : List BlockId) : Prop where
  block : f.block? m.2.id = some m.2
  route : f.Route f.entry l m.2.id
  heads : l.filter f.isHead = m.1.opened
  nodup : m.1.opened.Nodup
  source : ∀ obligation kind, (m.1.path obligation kind).source f = m.2.id

theorem isHead_of_kind {i : BlockId} {b : Block} {invariant : Expr} {ranking : List Expr}
    (hb : f.block? i = some b) (hk : b.kind = .loopHead invariant ranking) :
    f.isHead i = true := by
  simp [isHead, hb, Block.isLoopHead, hk]

theorem not_isHead_of_kind {i : BlockId} {b : Block} (hb : f.block? i = some b)
    (hk : ∀ invariant ranking, b.kind ≠ .loopHead invariant ranking) : ¬ f.isHead i = true := by
  simp [isHead, hb, Block.isLoopHead]

/-- A step of the search makes the branch longer by one block, and opens a head if that block is
one. -/
theorem Branch.next (hc : f.Checked p) (hb : f.Branch m l) (hn : f.Next m n) :
    f.Branch n (n.2.id :: l) := by
  cases hn with
  | @basic r b c j hj hcb hk =>
      have hid := hc.label hcb
      refine ⟨hid ▸ hcb, hb.route.step ⟨b, hb.block, hid ▸ hj⟩, ?_, hb.nodup, ?_⟩
      · have hno : ¬ f.isHead c.id = true :=
          not_isHead_of_kind (hid ▸ hcb) fun _ _ h => by cases hk.symm.trans h
        rw [List.filter_cons_of_neg hno]
        exact hb.heads
      · intro obligation kind
        simp [BasicPath.source, Run.path, Run.extend, Run.through]
  | @head r b c j invariant ranking hj hcb hk ho =>
      have hid := hc.label hcb
      refine ⟨hid ▸ hcb, hb.route.step ⟨b, hb.block, hid ▸ hj⟩, ?_, ?_, ?_⟩
      · rw [List.filter_cons_of_pos (isHead_of_kind (hid ▸ hcb) hk), hb.heads, hid]
        rfl
      · exact List.nodup_cons.2 ⟨ho, hb.nodup⟩
      · intro obligation kind
        simp [BasicPath.source, Run.path, Run.atHead, Run.through]

/-- Each position of the search is at the end of a branch. -/
theorem Visits.branch (hc : f.Checked p) (hm : f.Visits m) : ∃ l, f.Branch m l := by
  induction hm with
  | @entry e condition ranking he hk =>
      have hid := hc.label he
      have hno : ¬ f.isHead f.entry = true :=
        not_isHead_of_kind he fun _ _ h => by cases hk.symm.trans h
      refine ⟨[f.entry], hid ▸ he, hid ▸ .refl, ?_, List.nodup_nil, fun _ _ => hid.symm⟩
      rw [List.filter_cons_of_neg hno]
      rfl
  | next _ hn ih =>
      obtain ⟨l, hb⟩ := ih
      exact ⟨_, hb.next hc hn⟩

/-! ## Open heads

An edge to a head decides between the two kinds of obligation by asking if the head is open. Both
answers are compared with dominance. -/

section Open

variable {h : BlockId}

/-- A loop head that dominates the end of the branch is open. -/
theorem Branch.mem_opened (hb : f.Branch m l) (hh : f.isHead h)
    (hd : f.Dominates h m.2.id) : h ∈ m.1.opened := by
  rw [← hb.heads, List.mem_filter]
  exact ⟨hd l hb.route, hh⟩

/-- An open head to which the end of the branch has an edge dominates the end. -/
theorem Branch.dominates (hn : f.NaturalLoops) (hb : f.Branch m l) (he : f.Edge m.2.id h)
    (ho : h ∈ m.1.opened) : f.Dominates h m.2.id := by
  have hmem : h ∈ l.filter f.isHead := hb.heads ▸ ho
  obtain ⟨front, back, rfl⟩ := List.append_of_mem (List.mem_filter.1 hmem).1
  obtain ⟨hback, hfront⟩ := hb.route.split
  -- the branch from `h` on, closed by the edge
  obtain ⟨d, hd, hhead, hdom⟩ := hn _ ⟨h, m.2.id, hfront, he⟩
  suffices d = h by
    subst this
    exact hdom _ hfront.target_mem
  by_contra hne
  have hfr : d ∈ front := by
    rcases List.mem_append.1 hd with hd | hd
    · exact hd
    · exact absurd (List.mem_singleton.1 hd) hne
  -- `d` dominates `h`, so it lies on the branch before `h` as well
  have hbk : d ∈ h :: back := hdom h (by simp) _ hback
  have hnodup : ((front ++ h :: back).filter f.isHead).Nodup := hb.heads ▸ hb.nodup
  rw [List.filter_append] at hnodup
  exact List.disjoint_of_nodup_append hnodup (List.mem_filter.2 ⟨hfr, hhead⟩)
    (List.mem_filter.2 ⟨hbk, hhead⟩)

end Open

end Function

/-! ## The kinds of invariant obligations

Only edges to a loop head give obligations of this kind, so each of them belongs to the end of one
branch. -/

/-- Paths that show an invariant are found on an edge to its loop head. -/
theorem Function.arrival_of_kind {p : Program} {f : Function} {m : Position} {q : BasicPath}
    {h : BlockId} (hf : f.Finds p m q) (hk : q.kind = .established h ∨ q.kind = .maintained h) :
    h ∈ m.2.successors ∧ f.isHead h ∧ ∃ invariant,
      q = m.1.path invariant (if h ∈ m.1.opened then .maintained h else .established h) := by
  have hinside : ∀ {r : Run} {b : Block}, q ∉ (p.inside r b [] b.statements).toList := by
    intro r b hq
    obtain ⟨_, a, _, obligation, kind, -, ha, rfl⟩ := Program.exists_of_mem_inside hq
    have hd := (Program.demands_iff ha obligation kind).2 rfl
    cases hd <;> simp [Run.path] at hk
  cases hf with
  | @arrival r b j _ hj hq =>
      obtain ⟨c, hb, ⟨condition, hkc, rfl⟩ | ⟨invariant, ranking, hkc, rfl⟩⟩ := arrival_eq_ok hq
      · simp [Run.path] at hk
      · have hjh : j = h := by
          by_cases ho : j ∈ r.opened <;> simpa [Run.path, ho] using hk
        subst hjh
        exact ⟨hj, isHead_of_kind hb hkc, invariant, rfl⟩
  | basic _ _ _ hq => exact absurd hq hinside
  | head _ _ _ _ hq => exact absurd hq hinside

/-- In a function with natural loops, a path on an edge to a loop head shows that the
invariant is maintained if the head dominates the source of the edge, and that it is
established otherwise. -/
theorem invariant_kind_by_dominance {p : Program} {f : Function} {q : BasicPath} {h : BlockId}
    (hv : p.validate = .ok ()) (hf : f ∈ p.functions) (hn : f.NaturalLoops)
    (hq : q ∈ (f.paths p).toList) (hk : q.kind = .established h ∨ q.kind = .maintained h) :
    f.Edge (q.source f) h ∧ f.isHead h ∧
      (f.Dominates h (q.source f) → q.kind = .maintained h) ∧
      (¬ f.Dominates h (q.source f) → q.kind = .established h) := by
  obtain ⟨m, hm, hfinds⟩ := Function.exists_finds hq
  obtain ⟨l, hb⟩ := hm.branch (Function.checked_of_validate hv hf)
  obtain ⟨hj, hhead, invariant, rfl⟩ := Function.arrival_of_kind hfinds hk
  have he : f.Edge m.2.id h := ⟨m.2, hb.block, hj⟩
  rw [hb.source]
  refine ⟨he, hhead, fun hd => ?_, fun hd => ?_⟩
  · simp only [Run.path, if_pos (hb.mem_opened hhead hd)]
  · simp only [Run.path, if_neg fun ho => hd (hb.dominates hn he ho)]

namespace Nesting

/-- A loop in a loop. -/
def nested : Function := ⟨"nested", 0, [], [], 0, 1, [
  ⟨0, .precondition (.bool true) [], [], [2], []⟩,
  ⟨1, .postcondition (.bool true), [7], [], []⟩,
  ⟨2, .loopHead (.bool true) [], [0, 6], [3, 7], []⟩,
  ⟨3, .basic, [2], [4], []⟩,
  ⟨4, .loopHead (.bool true) [], [3, 5], [5, 6], []⟩,
  ⟨5, .basic, [4], [4], []⟩,
  ⟨6, .basic, [4], [2], []⟩,
  ⟨7, .basic, [2], [1], []⟩]⟩

def program : Program := { types := .ofList [⟨[], []⟩], functions := [nested] }

/-- The outer loop cannot be entered but through its head. -/
theorem dominates_outer : nested.Dominates 2 6 :=
  Function.dominates_of_closed (s := [0]) (by decide) (by decide) (by decide)

/-- Nor can the inner one. -/
theorem dominates_inner : nested.Dominates 4 5 :=
  Function.dominates_of_closed (s := [0, 1, 2, 3, 7]) (by decide) (by decide) (by decide)

/-- The blocks in the order in which the loops run through them. -/
def rank (i : BlockId) : Nat := [0, 7, 1, 2, 3, 4, 5, 6].getD i 0

/-- Both loops of the example are natural. -/
theorem naturalLoops_nested : nested.NaturalLoops := by
  refine Function.naturalLoops_of_rank rank fun e he => ?_
  by_cases hr : rank e.1 < rank e.2
  · exact Or.inl hr
  · -- two edges go back
    have hback : e = (5, 4) ∨ e = (6, 2) := by
      revert e
      decide
    rcases hback with rfl | rfl
    · exact Or.inr ⟨rfl, dominates_inner⟩
    · exact Or.inr ⟨rfl, dominates_outer⟩

end Nesting

/-- The outer loop goes around on an edge that the search meets after it has left the inner
loop, whose head is still open. -/
theorem invariant_kind_by_dominance_nested :
    ∃ q, Nesting.program.validate = .ok () ∧ Nesting.nested ∈ Nesting.program.functions ∧
      Nesting.nested.NaturalLoops ∧ q ∈ (Nesting.nested.paths Nesting.program).toList ∧
      q.kind = .maintained 2 ∧ q.source Nesting.nested = 6 ∧
      Nesting.nested.Edge (q.source Nesting.nested) 2 ∧ Nesting.nested.isHead 2 ∧
      (Nesting.nested.Dominates 2 (q.source Nesting.nested) → q.kind = .maintained 2) ∧
      (¬ Nesting.nested.Dominates 2 (q.source Nesting.nested) → q.kind = .established 2) := by
  have hv : Nesting.program.validate = .ok () := by cbv
  have hf : Nesting.nested ∈ Nesting.program.functions := by simp [Nesting.program]
  obtain ⟨paths, hp, q, hq, hk, hs⟩ : ∃ paths,
      (Nesting.nested.paths Nesting.program).toList = paths ∧
        ∃ q ∈ paths, q.kind = .maintained 2 ∧ q.source Nesting.nested = 6 :=
    ⟨_, by cbv, _, .tail _ (.tail _ (.tail _ (.head _))), rfl, rfl⟩
  subst hp
  exact ⟨q, hv, hf, Nesting.naturalLoops_nested, hq, hk, hs,
    invariant_kind_by_dominance hv hf Nesting.naturalLoops_nested hq (Or.inr hk)⟩

end Pathwise
