import Mathlib.Data.List.Permutation
import Mathlib.Logic.Relation
import Pathwise.Proofs.Binding
import Pathwise.Proofs.Search
import Pathwise.Proofs.Validation

/-!
# Pathwise.Proofs.BasicPaths

The search finds exactly the basic paths.

`Program.IsBasicPath` says what a basic path is without reference to the search: it is a walk
through the graph (`Function.Walk`) that starts at the entry or at a loop head that the entry
leads to, passes basic blocks only, and ends on an edge to an annotated block or before a
statement with an obligation.

The point of the proof is that no path gets lost at a loop head that is open already: whoever
opened it has searched the paths that start there (`Function.opened_of_visits`).

Whether an invariant is established or maintained depends on the branch of the search and not on
the graph, so the two are taken together (`BasicPath.merged`) where paths are compared.

The search fails if a walk can go around without passing a loop head, so the statement is about
searches that end without a defect. For those, walks and positions of the search correspond: each
position comes from a walk (`Function.walk_of_visits`), and each walk leads to a position
(`Function.visits_of_walk`).
-/

namespace Pathwise

/-! ## Basic paths

Edges, reachability and walks are relations on positions of the graph. Obligations of statements
are a relation too, so that the specification does not run any code of the search. -/

/-- There is an edge between the blocks at two positions. -/
def Function.Edge (f : Function) (i j : BlockId) : Prop :=
  ∃ b, f.block? i = some b ∧ j ∈ b.successors

/-- The entry leads to the block at a position. -/
def Function.Reachable (f : Function) (i : BlockId) : Prop :=
  Relation.ReflTransGen f.Edge f.entry i

/-- What a block adds to a path that passes it. The entry adds nothing. -/
def Block.segments (b : Block) : List Segment :=
  match b.kind with
  | .precondition _ _ => []
  | _ => [⟨b.id, b.statements⟩]

/-- A walk from the entry or from a loop head into the block `b`, with what is known at its
start and the segments of the blocks it has passed. -/
inductive Function.Walk (f : Function) : PathStart → Expr → List Segment → Block → Prop where
  | entry {b : Block} {condition : Expr} {ranking : List Expr} (hb : f.block? f.entry = some b)
      (hk : b.kind = .precondition condition ranking) : Walk f .precondition condition [] b
  | head {h : BlockId} {b : Block} {invariant : Expr} {ranking : List Expr} (hr : f.Reachable h)
      (hb : f.block? h = some b) (hk : b.kind = .loopHead invariant ranking) :
      Walk f (.loopHead h) invariant [] b
  /-- The walk passes the block `b` and goes on to a basic block. -/
  | step {start : PathStart} {known : Expr} {segments : List Segment} {b c : Block} {j : BlockId}
      (hw : Walk f start known segments b) (hj : j ∈ b.successors) (hc : f.block? j = some c)
      (hk : c.kind = .basic) : Walk f start known (segments ++ b.segments) c

/-- The statement has an obligation of this kind: an assertion itself, or the precondition of
a callee with the arguments in place of the parameters, unless it is literally true. -/
inductive Program.Demands (p : Program) (a : Statement) : Expr → ObligationKind → Prop where
  | assertion {condition : Expr} (ha : a.action = .assert condition) :
      Demands p a condition (.assertion a.ordinal)
  | precondition {targets : List Variable} {id : FunctionId} {args : List Expr} {g : Function}
      {condition : Expr} (ha : a.action = .call targets id args) (hg : p.function? id = some g)
      (hc : g.precondition? = some condition) (ht : condition ≠ .bool true) :
      Demands p a (.substUnder (replacement (g.parameters.zip args)) [] condition)
        (.callPrecondition a.ordinal g.name)

/-- The basic paths of a function. Whether an invariant is established or maintained is not
told apart. -/
inductive Program.IsBasicPath (p : Program) (f : Function) : BasicPath → Prop where
  | exit {start : PathStart} {known : Expr} {segments : List Segment} {b c : Block} {j : BlockId}
      {condition : Expr} (hw : f.Walk start known segments b) (hj : j ∈ b.successors)
      (hc : f.block? j = some c) (hk : c.kind = .postcondition condition) :
      IsBasicPath p f ⟨start, known, segments ++ b.segments, condition, .postcondition⟩
  | head {start : PathStart} {known : Expr} {segments : List Segment} {b c : Block} {j : BlockId}
      {invariant : Expr} {ranking : List Expr} (hw : f.Walk start known segments b)
      (hj : j ∈ b.successors) (hc : f.block? j = some c)
      (hk : c.kind = .loopHead invariant ranking) :
      IsBasicPath p f ⟨start, known, segments ++ b.segments, invariant, .established j⟩
  /-- The path ends inside a block, before a statement with an obligation. -/
  | inside {start : PathStart} {known : Expr} {segments : List Segment} {b : Block}
      {front back : List Statement} {a : Statement} {obligation : Expr} {kind : ObligationKind}
      (hw : f.Walk start known segments b) (hs : b.statements = front ++ a :: back)
      (hd : p.Demands a obligation kind) :
      IsBasicPath p f ⟨start, known, segments ++ [⟨b.id, front⟩], obligation, kind⟩

/-- The kind of an obligation, with all obligations of an invariant taken together. -/
def ObligationKind.merged : ObligationKind → ObligationKind
  | maintained head => established head
  | kind => kind

/-- The path, with all obligations of an invariant taken together. -/
def BasicPath.merged (q : BasicPath) : BasicPath := { q with kind := q.kind.merged }

/-! ## Obligations inside blocks

The obligations that the search computes for a statement are those that the statement has. -/

/-- The only obligation of a call is the precondition of the callee. -/
theorem Program.Demands.of_call {p : Program} {a : Statement} {obligation condition : Expr}
    {kind : ObligationKind} {g : Function} {targets : List Variable} {id : FunctionId}
    {args : List Expr} (hd : p.Demands a obligation kind) (ha : a.action = .call targets id args)
    (hg : p.function? id = some g) (hc : g.precondition? = some condition) :
    condition ≠ .bool true ∧
      obligation = .substUnder (replacement (g.parameters.zip args)) [] condition ∧
      kind = .callPrecondition a.ordinal g.name := by
  cases hd with
  | assertion ha' => cases ha.symm.trans ha'
  | precondition ha' hg' hc' ht =>
      cases ha.symm.trans ha'
      cases hg.symm.trans hg'
      cases hc.symm.trans hc'
      exact ⟨ht, rfl, rfl⟩

/-- The search computes the obligations of a statement. It may fail to, if the callee does not
exist or has no precondition, which validation rules out. -/
theorem Program.demands_iff {p : Program} {a : Statement} {o : Option (Expr × ObligationKind)}
    (h : p.obligation? a = .ok o) (obligation : Expr) (kind : ObligationKind) :
    p.Demands a obligation kind ↔ o = some (obligation, kind) := by
  unfold obligation? at h
  cases ha : a.action with
  | assert condition =>
      simp only [ha, Except.ok.injEq] at h
      subst h
      constructor
      · intro hd
        cases hd with
        | assertion ha' =>
            cases ha.symm.trans ha'
            rfl
        | precondition ha' => cases ha.symm.trans ha'
      · rintro ⟨⟩
        exact .assertion ha
  | call targets id args =>
      simp only [ha] at h
      obtain ⟨g, hg, h⟩ := bind_eq_ok_iff.1 h
      obtain ⟨condition, hc, h⟩ := bind_eq_ok_iff.1 h
      rw [getOr_eq_ok_iff] at hg hc
      split at h
      · -- a precondition that is literally true is no obligation
        cases h
        exact ⟨fun hd => absurd rfl (hd.of_call ha hg hc).1, nofun⟩
      · next ht =>
          obtain ⟨σ, hσ, h⟩ := bind_eq_ok_iff.1 h
          cases h
          rw [Expr.substAll, Function.find?_of_bind hσ]
          constructor
          · intro hd
            obtain ⟨-, rfl, rfl⟩ := hd.of_call ha hg hc
            rfl
          · rintro ⟨⟩
            exact .precondition ha hg hc fun h => ht h
  | _ =>
      simp only [ha, Except.ok.injEq] at h
      subst h
      exact ⟨fun hd => by cases hd <;> simp_all, nofun⟩

/-! ## Where the search gets to

Positions of the search against walks through the graph. Loop heads are the difficulty: the search
enters one only if it is not open on its branch, while a walk may start at any of them. -/

namespace Function

variable {p : Program} {f : Function} {m : Position}

section Visits

variable (hc : f.Checked p)

include hc

/-- A walk goes to blocks that the entry leads to. A block is found at the position that it is
labelled with, by validation. -/
theorem Walk.reachable {start : PathStart} {known : Expr} {segments : List Segment} {b : Block}
    (hw : f.Walk start known segments b) : f.block? b.id = some b ∧ f.Reachable b.id := by
  induction hw with
  | entry hb _ =>
      rw [hc.label hb]
      exact ⟨hb, .refl⟩
  | head hr hb _ =>
      rw [hc.label hb]
      exact ⟨hb, hr⟩
  | step _ hj hb _ ih =>
      rw [hc.label hb]
      exact ⟨hb, ih.2.tail ⟨_, ih.1, hj⟩⟩

/-- The run at a position is a walk that has passed the block there. The walk ends in this block,
and the run has all of its statements. -/
theorem walk_of_visits (hm : f.Visits m) :
    ∃ segments, f.Walk m.1.start m.1.known segments m.2 ∧
      m.1.segments = segments ++ m.2.segments := by
  induction hm with
  | entry he hk => exact ⟨[], .entry he hk, by simp [Block.segments, hk, Run.atEntry]⟩
  | next hm hn ih =>
      obtain ⟨segments, hw, hseg⟩ := ih
      cases hn with
      | basic hj hb hk =>
          refine ⟨segments ++ _, .step hw hj hb hk, ?_⟩
          rw [← hseg]
          simp [Run.extend, Run.through, Block.segments, hk]
      | head hj hb hk ho =>
          obtain ⟨hid, hr⟩ := hw.reachable hc
          exact ⟨[], .head (hr.tail ⟨_, hid, hj⟩) hb hk, by
            simp [Run.atHead, Run.through, Block.segments, hk]⟩

omit hc in
/-- An open loop head was opened at some position. From there the search has gone on with a run
that starts at the head. -/
theorem opened_of_visits (hm : f.Visits m) {h : BlockId} (hh : h ∈ m.1.opened) :
    ∃ n, f.Visits n ∧ h ∈ n.2.successors ∧ h ∉ n.1.opened := by
  induction hm with
  | entry he hk => cases hh
  | next hm hn ih =>
      cases hn with
      | basic hj hb hk => exact ih hh
      | head hj hb hk ho =>
          rcases List.mem_cons.1 hh with rfl | hh
          · exact ⟨_, hm, hj, ho⟩
          · exact ih hh

omit hc in
/-- The search opens each loop head that can be reached by an edge from a position, if not at this
position then at an earlier one. -/
theorem exists_opening (hm : f.Visits m) {h : BlockId} (hh : h ∈ m.2.successors) :
    ∃ n, f.Visits n ∧ h ∈ n.2.successors ∧ h ∉ n.1.opened := by
  by_cases ho : h ∈ m.1.opened
  · exact opened_of_visits hm ho
  · exact ⟨m, hm, hh, ho⟩

/-- The search gets to all blocks that the entry leads to, but for the exit. It may not follow the
edges that lead there, where these go to an open loop head. -/
theorem visits_of_reachable {i : BlockId} (hi : f.Reachable i) :
    i = f.exit ∨ ∃ r b, f.block? i = some b ∧ f.Visits (r, b) := by
  induction hi with
  | refl =>
      obtain ⟨e, condition, ranking, -, he, hk, -⟩ := hc.entry
      exact Or.inr ⟨_, e, he, .entry he hk⟩
  | @tail i j _ hij ih =>
      obtain ⟨b', hb', hj⟩ := hij
      rcases ih with rfl | ⟨r, b, hb, hv⟩
      · -- the exit has no edges
        obtain ⟨x, post, hx, -, hsucc, -⟩ := hc.exit
        cases hb'.symm.trans hx
        rw [hsucc] at hj
        cases hj
      · cases hb'.symm.trans hb
        obtain ⟨c, hc', -⟩ := hc.target hb hj
        cases hk : c.kind with
        | basic => exact Or.inr ⟨_, c, hc', hv.next (.basic hj hc' hk)⟩
        | postcondition condition => exact Or.inl (hc.eq_exit hc' hk)
        | precondition condition ranking => exact absurd (hc.eq_entry hc' hk) (hc.ne_entry hb hj)
        | loopHead invariant ranking =>
            -- if the head is open, the search has been there from where it was opened
            obtain ⟨n, hn, hj, ho⟩ := exists_opening hv hj
            exact Or.inr ⟨_, c, hc', hn.next (.head hj hc' hk ho)⟩

/-- The search opens each loop head that the entry leads to. -/
theorem opening_of_reachable {h : BlockId} {b : Block} {invariant : Expr} {ranking : List Expr}
    (hr : f.Reachable h) (hb : f.block? h = some b) (hk : b.kind = .loopHead invariant ranking) :
    ∃ n, f.Visits n ∧ h ∈ n.2.successors ∧ h ∉ n.1.opened := by
  rcases visits_of_reachable hc hr with rfl | ⟨r, b', hb', hv⟩
  · obtain ⟨x, post, hx, hkx, -⟩ := hc.exit
    cases hb.symm.trans hx
    cases hk.symm.trans hkx
  · cases hb.symm.trans hb'
    -- the search comes to a loop head only by opening it
    cases hv with
    | entry he hk' => cases hk.symm.trans hk'
    | next hm hn =>
        cases hn with
        | basic hj hb' hk' => cases hk.symm.trans hk'
        | head hj hb' hk' ho =>
            rw [← hc.label hb, hc.label hb']
            exact ⟨_, hm, hj, ho⟩

/-- The search follows every walk. Where the walk starts at a loop head, the run is the one that
was started when the head was opened. -/
theorem visits_of_walk {start : PathStart} {known : Expr} {segments : List Segment} {b : Block}
    (hw : f.Walk start known segments b) :
    ∃ r, f.Visits (r, b) ∧ r.start = start ∧ r.known = known ∧
      r.segments = segments ++ b.segments := by
  induction hw with
  | entry hb hk => exact ⟨_, .entry hb hk, rfl, rfl, by simp [Block.segments, hk, Run.atEntry]⟩
  | head hr hb hk =>
      -- the walk starts at the head, so the search has opened it somewhere
      obtain ⟨n, hn, hj, ho⟩ := opening_of_reachable hc hr hb hk
      exact ⟨_, hn.next (.head hj hb hk ho), rfl, rfl, by
        simp [Block.segments, hk, Run.atHead, Run.through]⟩
  | step _ hj hb hk ih =>
      obtain ⟨r, hv, hstart, hknown, hseg⟩ := ih
      refine ⟨_, hv.next (.basic hj hb hk), hstart, hknown, ?_⟩
      rw [← hseg]
      simp [Block.segments, hk, Run.extend, Run.through]

end Visits

/-! ## The paths found are the basic paths

Both directions, by the way in which a path ends. Paths that end on an edge and paths that end
inside a block are found at the position before. -/

section Paths

variable {q : BasicPath} (hc : f.Checked p) (h : (f.paths p).outcome = .ok ())

/-- A path ends on an edge to the exit or to a loop head. The kind of its obligation tells whether
the loop head is open on the branch. -/
theorem arrival_eq_ok {r : Run} {b : Block} {j : BlockId}
    (hq : f.arrival r b j = .ok (some q)) :
    ∃ c, f.block? j = some c ∧
      ((∃ condition, c.kind = .postcondition condition ∧ q = r.path condition .postcondition) ∨
        ∃ invariant ranking, c.kind = .loopHead invariant ranking ∧
          q = r.path invariant (if j ∈ r.opened then .maintained j else .established j)) := by
  obtain ⟨c, hb, hq⟩ := bind_eq_ok_iff.1 hq
  refine ⟨c, getOr_eq_ok_iff.1 hb, ?_⟩
  cases hk : c.kind with
  | postcondition condition =>
      simp only [hk] at hq
      cases hq
      exact Or.inl ⟨condition, rfl, rfl⟩
  | loopHead invariant ranking =>
      simp only [hk] at hq
      cases hq
      exact Or.inr ⟨invariant, ranking, rfl, rfl⟩
  | _ =>
      simp only [hk] at hq
      cases hq

/-- Merging forgets whether the loop head was open. -/
theorem merged_path_head (r : Run) (invariant : Expr) (j : BlockId) :
    (r.path invariant (if j ∈ r.opened then .maintained j else .established j)).merged =
      r.path invariant (.established j) := by
  by_cases ho : j ∈ r.opened <;> simp [BasicPath.merged, ObligationKind.merged, Run.path, ho]

/-- Only obligations of invariants are taken together. -/
theorem merged_of_demands {a : Statement} {obligation : Expr} {kind : ObligationKind}
    (hd : p.Demands a obligation kind) : kind.merged = kind := by
  cases hd <;> rfl

/-- What is found inside a block that a walk leads to is a basic path. -/
theorem isBasicPath_of_inside {r : Run} {b : Block} (hw : f.Walk r.start r.known r.segments b)
    (hq : q ∈ (p.inside r b [] b.statements).toList) : p.IsBasicPath f q.merged := by
  obtain ⟨front, a, back, obligation, kind, hs, ha, rfl⟩ := Program.exists_of_mem_inside hq
  have hd := (Program.demands_iff ha obligation kind).2 rfl
  have := Program.IsBasicPath.inside (p := p) hw hs hd
  rwa [BasicPath.merged, Run.path, merged_of_demands hd]

omit h in
include hc in
/-- What the search finds at a position is a basic path. This needs no search without defects, so
it holds of paths that were found before a defect. -/
theorem isBasicPath_of_finds (hv : f.Visits m) (hf : f.Finds p m q) :
    p.IsBasicPath f q.merged := by
  obtain ⟨r, b⟩ := m
  obtain ⟨segments, hw, hseg⟩ := walk_of_visits hc hv
  cases hf with
  | arrival hj hq =>
      obtain ⟨c, hb, ⟨condition, hk, rfl⟩ | ⟨invariant, ranking, hk, rfl⟩⟩ := arrival_eq_ok hq
      · have := Program.IsBasicPath.exit (p := p) hw hj hb hk
        rwa [← hseg] at this
      · have := Program.IsBasicPath.head (p := p) hw hj hb hk
        rwa [← hseg, ← Run.path, ← merged_path_head] at this
  | basic hj hb hk hq =>
      have hw' := hw.step hj hb hk
      rw [← hseg] at hw'
      exact isBasicPath_of_inside hw' hq
  | @head _ _ c j invariant ranking _ hj hb hk ho hq =>
      obtain ⟨hr, hreach⟩ := hw.reachable hc
      have hw' : f.Walk (.loopHead j) invariant [] c := .head (hreach.tail ⟨_, hr, hj⟩) hb hk
      exact isBasicPath_of_inside (r := r.atHead j invariant) hw' hq

include hc h in
/-- Every path found is a basic path. -/
theorem isBasicPath_of_mem (hq : q ∈ (f.paths p).toList) : p.IsBasicPath f q.merged := by
  obtain ⟨m, hv, hf⟩ := (mem_paths_iff h).1 hq
  exact isBasicPath_of_finds hc hv hf

/-- Basic paths that end inside a block are found there. -/
theorem mem_inside_of_demands {r : Run} {b : Block} {front back : List Statement} {a : Statement}
    {obligation : Expr} {kind : ObligationKind}
    (ho : (p.inside r b [] b.statements).outcome = .ok ())
    (hs : b.statements = front ++ a :: back) (hd : p.Demands a obligation kind) :
    (r.through b front).path obligation kind ∈ (p.inside r b [] b.statements).toList := by
  obtain ⟨o, ha⟩ := Program.outcome_inside_ok.1 ho a (by rw [hs]; simp)
  rw [(Program.demands_iff ha obligation kind).1 hd] at ha
  exact (Program.mem_inside ho).2 ⟨front, a, back, obligation, kind, hs, ha, rfl⟩

include hc h in
/-- Every basic path is found. The walk of the path leads to a position of the search, which finds
the path there if it meets no defect. -/
theorem exists_mem_of_isBasicPath (hq : p.IsBasicPath f q) :
    ∃ q' ∈ (f.paths p).toList, q'.merged = q := by
  cases hq with
  | @exit start known segments b c j condition hw hj hb hk =>
      obtain ⟨r, hv, rfl, rfl, hseg⟩ := visits_of_walk hc hw
      refine ⟨r.path condition .postcondition, (mem_paths_iff h).2 ⟨_, hv, .arrival hj ?_⟩, ?_⟩
      · exact bind_eq_ok_iff.2 ⟨c, getOr_eq_ok_iff.2 hb, by rw [hk]; rfl⟩
      · rw [← hseg]
        rfl
  | @head start known segments b c j invariant ranking hw hj hb hk =>
      obtain ⟨r, hv, rfl, rfl, hseg⟩ := visits_of_walk hc hw
      refine ⟨r.path invariant (if j ∈ r.opened then .maintained j else .established j),
        (mem_paths_iff h).2 ⟨_, hv, .arrival hj ?_⟩, ?_⟩
      · exact bind_eq_ok_iff.2 ⟨c, getOr_eq_ok_iff.2 hb, by rw [hk]; rfl⟩
      · rw [merged_path_head, Run.path, hseg]
  | @inside start known segments b front back a obligation kind hw hs hd =>
      have hmerged := merged_of_demands hd
      cases hw with
      | entry hb hk =>
          -- the entry has no statements
          obtain ⟨e, _, _, _, he, -, -, -, hstat⟩ := hc.entry
          cases hb.symm.trans he
          rw [hstat] at hs
          simp at hs
      | @head j b invariant ranking hr hb hk =>
          obtain ⟨n, hn, hj, ho⟩ := opening_of_reachable hc hr hb hk
          obtain ⟨-, -, hbeyond⟩ := outcome_fanOut_ok.1 (hn.outcome h).1
          obtain ⟨hin, -⟩ := (outcome_beyond_head hb hk ho).1 (hbeyond _ hj)
          have hmem := mem_inside_of_demands hin hs hd
          refine ⟨_, (mem_paths_iff h).2 ⟨n, hn, .head hj hb hk ho hmem⟩, ?_⟩
          rw [BasicPath.merged, Run.path, hmerged]
          rfl
      | @step _ _ segments b' b j hw hj hb hk =>
          obtain ⟨r, hv, rfl, rfl, hseg⟩ := visits_of_walk hc hw
          obtain ⟨-, -, hbeyond⟩ := outcome_fanOut_ok.1 (hv.outcome h).1
          obtain ⟨-, hin, -⟩ := (outcome_beyond_basic hb hk).1 (hbeyond _ hj)
          have hmem := mem_inside_of_demands hin hs hd
          refine ⟨_, (mem_paths_iff h).2 ⟨_, hv, .basic hj hb hk hmem⟩, ?_⟩
          rw [BasicPath.merged, Run.path, hmerged, ← hseg]
          rfl

end Paths

end Function

/-! ## A program to try results on

A loop with a call and an assertion in it is enough to have paths of all kinds. Later modules use
the same program, for executions and for the verdict. -/

namespace Counting

open Sample (i n r x)

/-- The body `r := x + 1`. -/
def increment : Function := ⟨"increment", 0, [x], [r], 0, 1, [
  ⟨0, .precondition (.bool true) [], [], [2], []⟩,
  ⟨1, .postcondition (.binary .eq (.var r) (.binary .add (.var x) (.int 1))), [2], [], []⟩,
  ⟨2, .basic, [0], [1], [⟨0, .assign r (.binary .add (.var x) (.int 1))⟩]⟩]⟩

/-- Count from zero to `n` by calls of `increment`. -/
def count : Function := ⟨"count", 0, [n], [i], 0, 5, [
  ⟨0, .precondition (.binary .ge (.var n) (.int 0)) [], [], [1], []⟩,
  ⟨1, .basic, [0], [2], [⟨0, .assign i (.int 0)⟩]⟩,
  ⟨2, .loopHead (.binary .le (.var i) (.var n)) [], [1, 3], [3, 4], []⟩,
  ⟨3, .basic, [2], [2], [
    ⟨1, .assume (.binary .lt (.var i) (.var n))⟩, ⟨2, .call [i] 0 [.var i]⟩,
    ⟨3, .assert (.binary .le (.var i) (.var n))⟩]⟩,
  ⟨4, .basic, [2], [5], [⟨4, .assume (.binary .ge (.var i) (.var n))⟩]⟩,
  ⟨5, .postcondition (.binary .eq (.var i) (.var n)), [4], [], []⟩]⟩

/-- A loop with a call and an assertion in it. -/
def program : Program := { types := .ofList [⟨[.int], [.int]⟩], functions := [increment, count] }

end Counting

/-! ## Exactness of the search

The main result: no path is wrong, and none is missing. -/

/-- The paths that the search finds in a function of a validated program are its basic
paths: none is wrong, and none is missing. -/
theorem basicPaths_exact {p : Program} {f : Function} {paths : List BasicPath}
    (hv : p.validate = .ok ()) (hf : f ∈ p.functions) (hp : (f.paths p).collect = .ok paths)
    (q : BasicPath) : q ∈ paths.map BasicPath.merged ↔ p.IsBasicPath f q := by
  have hc := Function.checked_of_validate hv hf
  obtain ⟨ho, rfl⟩ := Trace.collect_eq_ok hp
  rw [List.mem_map]
  constructor
  · rintro ⟨q, hq, rfl⟩
    exact Function.isBasicPath_of_mem hc ho hq
  · exact Function.exists_mem_of_isBasicPath hc ho

/-- The loop of `count` has four basic paths: into the loop, to the assertion in it, around
it, and out of it. -/
theorem basicPaths_exact_count :
    ∃ paths, paths.length = 4 ∧ Counting.program.validate = .ok () ∧
      Counting.count ∈ Counting.program.functions ∧
      (Counting.count.paths Counting.program).collect = .ok paths ∧
      ∀ q, q ∈ paths.map BasicPath.merged ↔ Counting.program.IsBasicPath Counting.count q := by
  have hv : Counting.program.validate = .ok () := by cbv
  have hf : Counting.count ∈ Counting.program.functions := by simp [Counting.program]
  obtain ⟨paths, hp, hlen⟩ : ∃ paths,
      (Counting.count.paths Counting.program).collect = .ok paths ∧ paths.length = 4 :=
    ⟨_, by cbv, rfl⟩
  exact ⟨paths, hlen, hv, hf, hp, basicPaths_exact hv hf hp⟩

end Pathwise
