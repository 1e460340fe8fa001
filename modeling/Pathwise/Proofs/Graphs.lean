import Pathwise.Proofs.Dominance

/-!
# Pathwise.Proofs.Graphs

Which graphs validation accepts.

`Function.WellFormed` says what a well-formed graph is, without reference to the order in which
validation makes its checks. Besides the types of its interface, annotations and statements
(`Function.Typed`), this is exactly what validation asks of a function: `graph_validation_exact`.

The last of the checks is a search for the blocks that the entry leads to. It keeps a list of
positions to look at, which may hold a position more than once, and looks at them in some order.
`Function.Turn` is one turn of it in any order, and the results do not depend on the order:

* every turn uses up one edge or the start, so that the search ends (`Function.Turns.le_edges`);
* when it ends, it has seen the blocks that the entry leads to (`Search.Tracks.mem_seen_iff`);
* if all edges lead to blocks, every position that it looks at is that of a block
  (`Function.Turns.inRange`).

What is asked of edges differs between the two sides. Validation goes through the successors and
the predecessors of each block and looks for the block in the list at the other end;
well-formedness says that an edge is recorded at both ends or at neither. The labels of blocks,
which the lists hold, are the positions only because this is checked as well.
-/

namespace Pathwise

/-! ## Well-formed functions

Each field is a condition that can be read off a drawing of the graph. None mentions another check
having passed before, although validation relies on that. -/

namespace Function

/-- The types in a function are right: those of its interface, of the annotations and in the
statements. -/
structure Typed (p : Program) (f : Function) : Prop where
  /-- The interface has the types of the signature. -/
  signature : ∃ sig, p.types.get? f.sig = some sig ∧ sig.params = f.parameters.map Variable.ty ∧
    sig.returns = f.results.map Variable.ty
  /-- The annotations have the types that their places ask for. -/
  annotation : ∀ {i b}, f.block? i = some b → ∀ a ∈ b.kind.annotations, p.check a.1 = .ok a.2
  /-- The statements are in order. -/
  statement : ∀ {i b}, f.block? i = some b → ∀ s ∈ b.statements, p.validateStatement f s = .ok ()

/-- The graph of a function is well formed. -/
structure WellFormed (f : Function) : Prop where
  label : ∀ {i b}, f.block? i = some b → b.id = i
  successor : ∀ {i b j}, f.block? i = some b → j ∈ b.successors → ∃ c, f.block? j = some c
  predecessor : ∀ {i b j}, f.block? i = some b → j ∈ b.predecessors → ∃ c, f.block? j = some c
  /-- An edge is recorded at both ends or at neither. -/
  edge : ∀ {i j b c}, f.block? i = some b → f.block? j = some c →
    (j ∈ b.successors ↔ i ∈ c.predecessors)
  /-- The entry is a precondition block without predecessors and statements and with one
  successor. -/
  entry : ∃ b c ranking j, f.block? f.entry = some b ∧ b.kind = .precondition c ranking ∧
    b.predecessors = [] ∧ b.successors = [j] ∧ b.statements = []
  /-- No other block is a precondition block. -/
  onlyEntry : ∀ {i b c ranking}, f.block? i = some b → b.kind = .precondition c ranking →
    i = f.entry
  /-- The exit is a postcondition block with a predecessor and without successors and
  statements. -/
  exit : ∃ b c, f.block? f.exit = some b ∧ b.kind = .postcondition c ∧ b.predecessors ≠ [] ∧
    b.successors = [] ∧ b.statements = []
  /-- No other block is a postcondition block. -/
  onlyExit : ∀ {i b c}, f.block? i = some b → b.kind = .postcondition c → i = f.exit
  /-- The entry leads to every block. -/
  reachable : ∀ {i b}, f.block? i = some b → f.Reachable i

end Function

/-! ## The search for reachable blocks

The turns are a relation on what has been seen and what is to be looked at. The search of
validation takes the last position that was added; nothing is gained by knowing this. -/

/-- Where a search through a graph stands. -/
structure Search where
  /-- The positions of the blocks that it has seen. -/
  seen : List BlockId
  /-- The positions to look at. -/
  todo : List BlockId

namespace Function

variable {f : Function} {s t : Search} {n : Nat}

/-- One turn of the search takes one of the positions to look at, whichever it is. So it does not
matter whether the search goes in depth or in breadth. -/
inductive Turn (f : Function) (s : Search) : Search → Prop where
  /-- The block there has been seen before. -/
  | again {i : BlockId} {rest : List BlockId} (htodo : s.todo.Perm (i :: rest)) (hi : i ∈ s.seen) :
      Turn f s ⟨s.seen, rest⟩
  /-- There is no block. -/
  | missing {i : BlockId} {rest : List BlockId} (htodo : s.todo.Perm (i :: rest))
      (hb : f.block? i = none) : Turn f s ⟨s.seen, rest⟩
  /-- The block is new, and its successors are to be looked at. -/
  | visit {i : BlockId} {rest : List BlockId} {b : Block} (htodo : s.todo.Perm (i :: rest))
      (hi : i ∉ s.seen) (hb : f.block? i = some b) :
      Turn f s ⟨i :: s.seen, b.successors ++ rest⟩

/-- A number of turns, one after the other. -/
inductive Turns (f : Function) : Nat → Search → Search → Prop where
  | nil (s : Search) : Turns f 0 s s
  | cons {n : Nat} {s t u : Search} (ht : f.Turn s t) (hr : Turns f n t u) : Turns f (n + 1) s u

/-- The search of validation takes turns until nothing is left to look at. How many there are is
bounded below. -/
theorem exists_turns_reach (f : Function) (seen todo : List BlockId) :
    ∃ n, f.Turns n ⟨seen, todo⟩ ⟨f.reach seen todo, []⟩ := by
  fun_induction f.reach seen todo with
  | case1 seen => exact ⟨0, .nil _⟩
  | case2 seen id rest hseen ih =>
      obtain ⟨n, hn⟩ := ih
      exact ⟨n + 1, .cons (.again (.refl _) hseen) hn⟩
  | case3 seen id rest _ hb ih =>
      obtain ⟨n, hn⟩ := ih
      exact ⟨n + 1, .cons (.missing (.refl _) hb) hn⟩
  | case4 seen id rest hseen b hb ih =>
      obtain ⟨n, hn⟩ := ih
      exact ⟨n + 1, .cons (.visit (.refl _) hseen hb) hn⟩

/-! ### The search ends

A turn takes a position off the list and may add the successors of a block. The list together with
the edges that leave unseen blocks gets shorter each time. -/

/-- How many edges leave blocks that have not been seen. Each of them may add a position to look
at, and only once. -/
def unseenEdges (f : Function) (seen : List BlockId) : Nat := f.edges.countP fun e => e.1 ∉ seen

/-- The edges of a block are among the edges of the graph. -/
theorem length_successors_le {i : BlockId} {b : Block} (hb : f.block? i = some b) :
    b.successors.length ≤ f.edges.countP fun e => e.1 = i := by
  have hsub : (b.successors.map fun j => (i, j)).Sublist f.edges := by
    rw [edges, List.flatMap_def]
    refine List.sublist_flatten_of_mem (List.mem_map.2 ⟨(b, i), ?_, rfl⟩)
    exact List.mk_mem_zipIdx_iff_getElem?.2 hb
  have hcount : (b.successors.map fun j => (i, j)).countP (fun e => e.1 = i) =
      b.successors.length := by
    rw [List.countP_map, List.countP_eq_length]
    simp
  exact hcount ▸ hsub.countP_le

/-- Seeing a block takes its edges out of the count. -/
theorem unseenEdges_cons {seen : List BlockId} {i : BlockId} (hi : i ∉ seen) :
    f.unseenEdges (i :: seen) + (f.edges.countP fun e => e.1 = i) = f.unseenEdges seen := by
  unfold unseenEdges
  induction f.edges with
  | nil => rfl
  | cons e es ih =>
      rw [List.countP_cons, List.countP_cons, List.countP_cons]
      by_cases he : e.1 = i
      · simp only [he, List.mem_cons_self, hi, not_true, not_false_iff, decide_true, decide_false,
          if_true, Bool.false_eq_true, if_false]
        omega
      · have hhead : decide (e.1 ∉ i :: seen) = decide (e.1 ∉ seen) := by simp [he]
        simp only [hhead, he, decide_false, Bool.false_eq_true, if_false]
        omega

/-- Every turn uses up a position to look at, and what it adds are edges that leave a block that
has not been seen before. -/
theorem Turn.lt (h : f.Turn s t) :
    t.todo.length + f.unseenEdges t.seen < s.todo.length + f.unseenEdges s.seen := by
  cases h with
  | again htodo _ =>
      have hlength := htodo.length_eq
      simp only [List.length_cons] at hlength ⊢
      omega
  | missing htodo _ =>
      have hlength := htodo.length_eq
      simp only [List.length_cons] at hlength ⊢
      omega
  | @visit i rest b htodo hi hb =>
      have hlength := htodo.length_eq
      have hnew := length_successors_le hb
      have hedges := unseenEdges_cons hi (f := f)
      simp only [List.length_cons, List.length_append] at hlength ⊢
      omega

/-- Over several turns, each of them is paid for. -/
theorem Turns.le (h : f.Turns n s t) :
    n + (t.todo.length + f.unseenEdges t.seen) ≤ s.todo.length + f.unseenEdges s.seen := by
  induction h with
  | nil s => omega
  | cons ht _ ih =>
      have hlt := ht.lt
      omega

/-- The search makes no more turns than there are edges, and one for the entry. The edges of a
block are put on the list once, when it is seen for the first time. -/
theorem Turns.le_edges (h : f.Turns n ⟨[], [f.entry]⟩ s) : n ≤ f.edges.length + 1 := by
  have hle : n + (s.todo.length + f.unseenEdges s.seen) ≤ 1 + f.unseenEdges [] := h.le
  have hall : f.unseenEdges [] ≤ f.edges.length := List.countP_le_length
  omega

end Function

/-! ### The search sees what the entry leads to

Everything that is seen can be reached, and what can be reached is never lost from view: it has
been seen or is to be looked at, unless there is no block. -/

namespace Search

variable {f : Function} {s t : Search} {n : Nat}

/-- The search has a position in view, or there is no block. A position comes into view when an
edge to it is found, and stays in view. -/
def Covers (f : Function) (s : Search) (i : BlockId) : Prop :=
  i ∈ s.seen ∨ i ∈ s.todo ∨ f.block? i = none

/-- A turn loses nothing from view. -/
theorem Covers.turn {i : BlockId} (h : s.Covers f i) (ht : f.Turn s t) : t.Covers f i := by
  unfold Covers at h ⊢
  cases ht with
  | again htodo hj =>
      rw [htodo.mem_iff, List.mem_cons] at h
      rcases h with h | (rfl | h) | h
      · exact Or.inl h
      · exact Or.inl hj
      · exact Or.inr (Or.inl h)
      · exact Or.inr (Or.inr h)
  | missing htodo hb =>
      rw [htodo.mem_iff, List.mem_cons] at h
      rcases h with h | (rfl | h) | h
      · exact Or.inl h
      · exact Or.inr (Or.inr hb)
      · exact Or.inr (Or.inl h)
      · exact Or.inr (Or.inr h)
  | visit htodo hj hb =>
      rw [htodo.mem_iff, List.mem_cons] at h
      rcases h with h | (rfl | h) | h
      · exact Or.inl (List.mem_cons_of_mem _ h)
      · exact Or.inl List.mem_cons_self
      · exact Or.inr (Or.inl (List.mem_append_right _ h))
      · exact Or.inr (Or.inr h)

/-- What holds of a search at every turn: it has come only to where the entry leads, and what it
has yet to come to is in view. -/
structure Tracks (f : Function) (s : Search) : Prop where
  /-- What has been seen are blocks. -/
  found : ∀ i ∈ s.seen, ∃ b, f.block? i = some b
  /-- The entry leads to all that has been seen. -/
  seen : ∀ i ∈ s.seen, f.Reachable i
  /-- The entry leads to all that is to be looked at. -/
  todo : ∀ i ∈ s.todo, f.Reachable i
  /-- The entry is in view. -/
  start : s.Covers f f.entry
  /-- So are the targets of edges that leave blocks that have been seen. -/
  closed : ∀ i ∈ s.seen, ∀ j, f.Edge i j → s.Covers f j

theorem tracks_start (f : Function) : Tracks f ⟨[], [f.entry]⟩ where
  found := List.forall_mem_nil _
  seen := List.forall_mem_nil _
  todo := List.forall_mem_singleton.2 .refl
  start := Or.inr (Or.inl List.mem_cons_self)
  closed := List.forall_mem_nil _

/-- Each turn keeps track of what has been seen. -/
theorem Tracks.turn (h : s.Tracks f) (ht : f.Turn s t) : t.Tracks f := by
  have hstart := h.start.turn ht
  have hclosed : ∀ i ∈ s.seen, ∀ j, f.Edge i j → t.Covers f j := fun i hi j hj =>
    (h.closed i hi j hj).turn ht
  cases ht with
  | again htodo _ =>
      exact ⟨h.found, h.seen, fun i hi => h.todo i (htodo.mem_iff.2 (List.mem_cons_of_mem _ hi)),
        hstart, hclosed⟩
  | missing htodo _ =>
      exact ⟨h.found, h.seen, fun i hi => h.todo i (htodo.mem_iff.2 (List.mem_cons_of_mem _ hi)),
        hstart, hclosed⟩
  | @visit i rest b htodo _ hb =>
      have hi : f.Reachable i := h.todo i (htodo.mem_iff.2 List.mem_cons_self)
      refine ⟨List.forall_mem_cons.2 ⟨⟨b, hb⟩, h.found⟩, List.forall_mem_cons.2 ⟨hi, h.seen⟩,
        List.forall_mem_append.2 ⟨fun j hj => hi.tail ⟨b, hb, hj⟩, fun j hj => ?_⟩, hstart,
        List.forall_mem_cons.2 ⟨?_, hclosed⟩⟩
      · exact h.todo j (htodo.mem_iff.2 (List.mem_cons_of_mem _ hj))
      · -- the successors of the new block are to be looked at now
        rintro j ⟨c, hc, hj⟩
        cases hb.symm.trans hc
        exact Or.inr (Or.inl (List.mem_append_left _ hj))

theorem Tracks.turns (h : s.Tracks f) (hr : f.Turns n s t) : t.Tracks f := by
  induction hr with
  | nil s => exact h
  | cons ht _ ih => exact ih (h.turn ht)

/-- When nothing is left to look at, the search has seen the blocks that the entry leads to.
Positions without a block may have been looked at as well, but are not seen. -/
theorem Tracks.mem_seen_iff (h : s.Tracks f) (hdone : s.todo = []) {i : BlockId} :
    i ∈ s.seen ↔ f.Reachable i ∧ ∃ b, f.block? i = some b := by
  have hcovers : ∀ j, s.Covers f j → (∃ b, f.block? j = some b) → j ∈ s.seen := by
    rintro j (hj | hj | hj) ⟨b, hb⟩
    · exact hj
    · rw [hdone] at hj
      cases hj
    · cases hb.symm.trans hj
  constructor
  · intro hi
    exact ⟨h.seen i hi, h.found i hi⟩
  · rintro ⟨hi, hb⟩
    refine hcovers i ?_ hb
    clear hb
    -- an edge leaves a block, and that block has been seen
    induction hi with
    | refl => exact h.start
    | @tail j k _ hjk ih =>
        have hj : ∃ b, f.block? j = some b := by
          obtain ⟨b, hb, -⟩ := hjk
          exact ⟨b, hb⟩
        exact h.closed j (hcovers j ih hj) k hjk

end Search

namespace Function

variable {p : Program} {f : Function} {s t : Search} {n : Nat}

/-- The search of validation finds the blocks that the entry leads to. At the end nothing is left
to look at, so what is in view has been seen. -/
theorem mem_reachable_iff {i : BlockId} :
    i ∈ f.reachable ↔ f.Reachable i ∧ ∃ b, f.block? i = some b := by
  obtain ⟨n, hn⟩ := f.exists_turns_reach [] [f.entry]
  exact ((Search.tracks_start f).turns hn).mem_seen_iff rfl

/-! ### The search stays within the graph

This is about positions to look at, and not only about those that are seen: an index beyond the
blocks would be an error even if nothing is found there. -/

/-- A turn adds positions of blocks only. -/
theorem Turn.inRange (hedge : ∀ {i b j}, f.block? i = some b → j ∈ b.successors →
      ∃ c, f.block? j = some c)
    (h : ∀ i ∈ s.todo, ∃ b, f.block? i = some b) (ht : f.Turn s t) :
    ∀ i ∈ t.todo, ∃ b, f.block? i = some b := by
  cases ht with
  | again htodo _ => exact fun i hi => h i (htodo.mem_iff.2 (List.mem_cons_of_mem _ hi))
  | missing htodo _ => exact fun i hi => h i (htodo.mem_iff.2 (List.mem_cons_of_mem _ hi))
  | visit htodo _ hb =>
      exact List.forall_mem_append.2 ⟨fun j hj => hedge hb hj, fun j hj =>
        h j (htodo.mem_iff.2 (List.mem_cons_of_mem _ hj))⟩

/-- If the entry exists and edges lead to blocks, then the search looks at blocks only. Both are
checked before, or else validation has failed already. -/
theorem Turns.inRange (hedge : ∀ {i b j}, f.block? i = some b → j ∈ b.successors →
      ∃ c, f.block? j = some c)
    (h : ∀ i ∈ s.todo, ∃ b, f.block? i = some b) (hr : f.Turns n s t) :
    ∀ i ∈ t.todo, ∃ b, f.block? i = some b := by
  induction hr with
  | nil s => exact h
  | cons ht _ ih => exact ih (ht.inRange hedge h)

/-! ## Acceptance

The two directions, check by check. The equivalences for the single checks are those of the
validation lemmas. -/

/-- What validation accepts is typed and well formed. -/
theorem wellFormed_of_validateFunction (h : p.validateFunction f = .ok ()) :
    f.Typed p ∧ f.WellFormed := by
  obtain ⟨hsig, hblocks, hends, hreach⟩ := validateFunction_eq_ok_iff.1 h
  obtain ⟨hentry, hexit⟩ := validateEnds_eq_ok_iff.1 hends
  rw [validateReachability_eq_ok_iff] at hreach
  -- what the checks of single blocks say, one by one
  have hlabel : ∀ {i b}, f.block? i = some b → b.id = i := fun hb =>
    (validateBlock_eq_ok_iff.1 (hblocks _ _ hb)).1
  have hedges : ∀ {i b}, f.block? i = some b →
      (∀ j ∈ b.successors, ∃ c, f.block? j = some c ∧ b.id ∈ c.predecessors) ∧
      ∀ j ∈ b.predecessors, ∃ c, f.block? j = some c ∧ b.id ∈ c.successors := fun hb =>
    validateEdges_eq_ok_iff.1 (validateBlock_eq_ok_iff.1 (hblocks _ _ hb)).2.1
  have hkind : ∀ {i b}, f.block? i = some b →
      (∀ c ranking, b.kind = .precondition c ranking → b.id = f.entry) ∧
      (∀ c, b.kind = .postcondition c → b.id = f.exit) ∧
      ∀ a ∈ b.kind.annotations, p.check a.1 = .ok a.2 := fun hb =>
    validateKind_eq_ok_iff.1 (validateBlock_eq_ok_iff.1 (hblocks _ _ hb)).2.2.1
  refine ⟨⟨hsig, fun hb => (hkind hb).2.2, fun hb =>
    (validateBlock_eq_ok_iff.1 (hblocks _ _ hb)).2.2.2⟩, ?_⟩
  exact {
    label := hlabel
    successor := fun hb hj => by
      obtain ⟨c, hc, -⟩ := (hedges hb).1 _ hj
      exact ⟨c, hc⟩
    predecessor := fun hb hj => by
      obtain ⟨c, hc, -⟩ := (hedges hb).2 _ hj
      exact ⟨c, hc⟩
    edge := fun {i j b c} hb hc => by
      constructor
      · intro hj
        obtain ⟨d, hd, hi⟩ := (hedges hb).1 j hj
        cases hc.symm.trans hd
        exact hlabel hb ▸ hi
      · intro hi
        obtain ⟨d, hd, hj⟩ := (hedges hc).2 i hi
        cases hb.symm.trans hd
        exact hlabel hc ▸ hj
    entry := hentry
    onlyEntry := fun hb hk => hlabel hb ▸ (hkind hb).1 _ _ hk
    exit := hexit
    onlyExit := fun hb hk => hlabel hb ▸ (hkind hb).2.1 _ hk
    reachable := fun hb => (mem_reachable_iff.1 (hreach _ _ hb)).1 }

/-- What is typed and well formed, validation accepts. -/
theorem validateFunction_of_wellFormed (ht : f.Typed p) (hw : f.WellFormed) :
    p.validateFunction f = .ok () := by
  have hedges : ∀ {i b}, f.block? i = some b → f.validateEdges b = .ok () := by
    intro i b hb
    refine validateEdges_eq_ok_iff.2 ⟨fun j hj => ?_, fun j hj => ?_⟩
    · obtain ⟨c, hc⟩ := hw.successor hb hj
      exact ⟨c, hc, (hw.label hb).symm ▸ (hw.edge hb hc).1 hj⟩
    · obtain ⟨c, hc⟩ := hw.predecessor hb hj
      exact ⟨c, hc, (hw.label hb).symm ▸ (hw.edge hc hb).2 hj⟩
  have hkind : ∀ {i b}, f.block? i = some b → p.validateKind f b = .ok () := fun hb =>
    validateKind_eq_ok_iff.2 ⟨fun _ _ hk => (hw.label hb).trans (hw.onlyEntry hb hk),
      fun _ hk => (hw.label hb).trans (hw.onlyExit hb hk), ht.annotation hb⟩
  refine validateFunction_eq_ok_iff.2 ⟨ht.signature, fun i b hb => ?_,
    validateEnds_eq_ok_iff.2 ⟨hw.entry, hw.exit⟩, validateReachability_eq_ok_iff.2 fun i b hb => ?_⟩
  · exact validateBlock_eq_ok_iff.2 ⟨hw.label hb, hedges hb, hkind hb, ht.statement hb⟩
  · exact mem_reachable_iff.2 ⟨hw.reachable hb, b, hb⟩

end Function

/-- Validation accepts exactly the functions whose types are right and whose graph is well formed.

The search for reachable blocks at the end of it ends after at most one turn more than there are
edges, in whatever order it takes the positions to look at. Where the checks before it have
passed, it only looks at positions of blocks. -/
theorem graph_validation_exact (p : Program) (f : Function) :
    (p.validateFunction f = .ok () ↔ f.Typed p ∧ f.WellFormed) ∧
    (∃ n, f.Turns n ⟨[], [f.entry]⟩ ⟨f.reachable, []⟩) ∧
    (∀ n s, f.Turns n ⟨[], [f.entry]⟩ s → n ≤ f.edges.length + 1) ∧
    ((∀ i b, f.block? i = some b → p.validateBlock f b i = .ok ()) → f.validateEnds = .ok () →
      ∀ n s, f.Turns n ⟨[], [f.entry]⟩ s → ∀ i ∈ s.todo, i < f.blocks.length) := by
  refine ⟨⟨Function.wellFormed_of_validateFunction, fun h =>
      Function.validateFunction_of_wellFormed h.1 h.2⟩, f.exists_turns_reach [] [f.entry],
    fun n s h => h.le_edges, fun hblocks hends n s hr i hi => ?_⟩
  have hedge : ∀ {i b j}, f.block? i = some b → j ∈ b.successors → ∃ c, f.block? j = some c := by
    intro i b j hb hj
    have hedges := (Function.validateBlock_eq_ok_iff.1 (hblocks i b hb)).2.1
    obtain ⟨c, hc, -⟩ := (Function.validateEdges_eq_ok_iff.1 hedges).1 j hj
    exact ⟨c, hc⟩
  have hstart : ∀ i ∈ [f.entry], ∃ b, f.block? i = some b := by
    obtain ⟨⟨b, -, -, -, hb, -⟩, -⟩ := Function.validateEnds_eq_ok_iff.1 hends
    exact List.forall_mem_singleton.2 ⟨b, hb⟩
  obtain ⟨b, hb⟩ := Function.Turns.inRange hedge hstart hr i hi
  exact (List.getElem?_eq_some_iff.1 hb).1

/-- Two loops, one in the other, are accepted, and no position that the search looks at is beyond
the eight blocks. -/
theorem graph_validation_exact_nested :
    Nesting.program.validateFunction Nesting.nested = .ok () ∧
      (Nesting.nested.Typed Nesting.program ∧ Nesting.nested.WellFormed) ∧
      ∀ n s, Nesting.nested.Turns n ⟨[], [0]⟩ s → n ≤ 10 ∧ ∀ i ∈ s.todo, i < 8 := by
  have hv : Nesting.program.validateFunction Nesting.nested = .ok () := by cbv
  obtain ⟨-, hblocks, hends, -⟩ := Function.validateFunction_eq_ok_iff.1 hv
  obtain ⟨hiff, -, hturns, hrange⟩ := graph_validation_exact Nesting.program Nesting.nested
  exact ⟨hv, hiff.1 hv, fun n s hr => ⟨hturns n s hr, hrange hblocks hends n s hr⟩⟩

end Pathwise
