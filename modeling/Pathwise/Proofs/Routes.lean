import Pathwise.Proofs.BasicPaths

/-!
# Pathwise.Proofs.Routes

Routes through the graph of a function, closed walks, and dominance.

A route lists the positions that it passes, the newest first, so that it grows as a branch of the
search does. `Function.NaturalLoops` says that the loops of a function are those that its loop
heads stand for: on every closed walk there is a head that dominates it. `naturalLoops_of_rank`
gives a way to see this from the edges.

The condition is the one under which graphs are called reducible in the literature on compilers,
with the loop heads given by the program. It quantifies over all closed walks and cannot be
checked by looking at them; the lemma at the end replaces it by a condition on edges, a rank that
goes up along all of them but those that lead back to a head that dominates where they come from.
-/

namespace Pathwise

namespace Function

/-- A route from one position to another, with the positions on it, newest first. It may pass a
position any number of times. -/
inductive Route (f : Function) (i : BlockId) : List BlockId → BlockId → Prop where
  | refl : Route f i [i] i
  | step {l : List BlockId} {j k : BlockId} (hr : Route f i l j) (he : f.Edge j k) :
      Route f i (k :: l) k

/-- The positions of a closed walk: an edge leads from the end of the route to its start. -/
def Closed (f : Function) (l : List BlockId) : Prop := ∃ i j, f.Route i l j ∧ f.Edge j i

/-- Every route from the entry to `u` passes `d`. A position that the entry does not lead to is
dominated by all. -/
def Dominates (f : Function) (d u : BlockId) : Prop := ∀ l, f.Route f.entry l u → d ∈ l

/-- There is a loop head at the position. -/
def isHead (f : Function) (i : BlockId) : Bool := (f.block? i).any Block.isLoopHead

/-- Every closed walk has a loop head that dominates all of it. Graphs that are made from
structured loops are of this kind. -/
def NaturalLoops (f : Function) : Prop :=
  ∀ l, f.Closed l → ∃ d ∈ l, f.isHead d ∧ ∀ i ∈ l, f.Dominates d i

/-- The edges of the graph. -/
def edges (f : Function) : List (BlockId × BlockId) :=
  f.blocks.zipIdx.flatMap fun (b, i) => b.successors.map (i, ·)

variable {f : Function} {i j k : BlockId} {l : List BlockId}

/-- The list has the edges, so that they can be gone through one by one. -/
theorem edge_iff_mem_edges : f.Edge i j ↔ (i, j) ∈ f.edges := by
  simp only [Edge, edges, List.mem_flatMap, List.mem_map, Prod.exists, Prod.mk.injEq,
    List.mk_mem_zipIdx_iff_getElem?, block?]
  constructor
  · rintro ⟨b, hb, hj⟩
    exact ⟨b, i, hb, j, hj, rfl, rfl⟩
  · rintro ⟨b, i, hb, j, hj, rfl, rfl⟩
    exact ⟨b, hb, hj⟩

namespace Route

theorem target_mem (hr : f.Route i l j) : j ∈ l := by
  cases hr <;> exact List.mem_cons_self

theorem source_mem (hr : f.Route i l j) : i ∈ l := by
  induction hr with
  | refl => exact List.mem_cons_self
  | step _ _ ih => exact List.mem_cons_of_mem _ ih

/-- A route can be cut at each position on it. -/
theorem split {front back : List BlockId} (hr : f.Route i (front ++ k :: back) j) :
    f.Route i (k :: back) k ∧ f.Route k (front ++ [k]) j := by
  induction front generalizing j with
  | nil => cases hr with
    | refl => exact ⟨.refl, .refl⟩
    | step hr he => exact ⟨.step hr he, .refl⟩
  | cons a front ih =>
      -- the case distinction needs a variable for the list
      generalize hl : a :: front ++ k :: back = l at hr
      cases hr with
      | refl => simp at hl
      | step hr he =>
          obtain ⟨rfl, rfl⟩ := List.cons.inj hl
          obtain ⟨hback, hfront⟩ := ih hr
          exact ⟨hback, .step hfront he⟩

/-- What passes backwards over the edges of a route holds all along it if it holds at its
end. -/
theorem forall_mem {P : BlockId → Prop} (hr : f.Route i l j) (hj : P j)
    (hback : ∀ a ∈ l, ∀ b ∈ l, f.Edge a b → P b → P a) : ∀ a ∈ l, P a := by
  induction hr with
  | refl =>
      intro a ha
      rwa [List.mem_singleton.1 ha]
  | @step l m k hr he ih =>
      have hm : P m := hback m (List.mem_cons_of_mem _ hr.target_mem) k List.mem_cons_self he hj
      have hl : ∀ a ∈ l, P a := by
        apply ih hm
        intro a ha b hb
        exact hback a (List.mem_cons_of_mem _ ha) b (List.mem_cons_of_mem _ hb)
      exact List.forall_mem_cons.2 ⟨hj, hl⟩

end Route

/-- What passes backwards over the edges of a closed walk holds everywhere on it if it
holds anywhere. -/
theorem Closed.forall_mem {P : BlockId → Prop} (hl : f.Closed l) {d : BlockId} (hd : d ∈ l)
    (hP : P d) (hback : ∀ a ∈ l, ∀ b ∈ l, f.Edge a b → P b → P a) : ∀ a ∈ l, P a := by
  obtain ⟨i, j, hr, he⟩ := hl
  obtain ⟨front, back, rfl⟩ := List.append_of_mem hd
  -- back from `d` to the start, and over the closing edge to the end
  obtain ⟨hpart, -⟩ := hr.split
  have hi : P i := by
    refine hpart.forall_mem hP (fun a ha b hb => ?_) i hpart.source_mem
    exact hback a (List.mem_append_right front ha) b (List.mem_append_right front hb)
  exact hr.forall_mem (hback j hr.target_mem i hr.source_mem he hi) hback

/-- There is an edge on a closed walk into each position on it. For the first position it is the
edge that closes the walk. -/
theorem Closed.exists_edge (hl : f.Closed l) {d : BlockId} (hd : d ∈ l) :
    ∃ a ∈ l, f.Edge a d := by
  obtain ⟨i, j, hr, he⟩ := hl
  obtain ⟨front, back, rfl⟩ := List.append_of_mem hd
  obtain ⟨hpart, -⟩ := hr.split
  cases hpart with
  | refl => exact ⟨j, hr.target_mem, he⟩
  | @step _ a _ hr' he' =>
      exact ⟨a, List.mem_append_right _ (List.mem_cons_of_mem _ hr'.target_mem), he'⟩

/-! ## Dominance

A position dominates another if there is no way around it. It is shown by a set of positions that
contains the entry and can be left through the dominator only. -/

/-- Dominance passes backwards over edges, but not over those into the dominator. A route to the
source can be continued over the edge, and the dominator is not the position added. -/
theorem Dominates.of_edge {d : BlockId} (hd : f.Dominates d j) (he : f.Edge i j) (hne : d ≠ j) :
    f.Dominates d i := by
  intro l hr
  exact (List.mem_cons.1 (hd _ (hr.step he))).resolve_left hne

/-- A position outside a set that contains the entry and can only be left through `d` is dominated
by `d`. The condition is about edges, and can be decided for a given set. -/
theorem dominates_of_closed {s : List BlockId} {d u : BlockId} (hentry : f.entry ∈ s)
    (hs : ∀ e ∈ f.edges, e.1 ∈ s → e.2 = d ∨ e.2 ∈ s) (hu : u ∉ s) : f.Dominates d u := by
  have hroute : ∀ {l i}, f.Route f.entry l i → d ∈ l ∨ i ∈ s := by
    intro l i hr
    induction hr with
    | refl => exact Or.inr hentry
    | step _ he ih =>
        rcases ih with hd | hi
        · exact Or.inl (List.mem_cons_of_mem _ hd)
        · refine (hs _ (edge_iff_mem_edges.1 he) hi).imp_left fun h => ?_
          exact h ▸ List.mem_cons_self
  exact fun l hr => (hroute hr).resolve_right hu

/-- If each edge goes up or leads back to a loop head that dominates its source, then every
closed walk has a loop head that dominates all of it: the lowest position on it. -/
theorem naturalLoops_of_rank (rank : BlockId → Nat)
    (h : ∀ e ∈ f.edges, rank e.1 < rank e.2 ∨ (f.isHead e.2 ∧ f.Dominates e.2 e.1)) :
    f.NaturalLoops := by
  intro l hl
  have hne : l ≠ [] := by
    obtain ⟨i, j, hr, -⟩ := hl
    exact List.ne_nil_of_mem hr.source_mem
  obtain ⟨d, hd, hmin⟩ : ∃ d ∈ l, ∀ a ∈ l, rank d ≤ rank a :=
    ⟨l.minOn rank hne, List.minOn_mem, fun _ ha => List.apply_minOn_le_of_mem ha⟩
  -- an edge of the walk into its lowest position goes back
  have hinto : ∀ a ∈ l, f.Edge a d → f.isHead d ∧ f.Dominates d a := by
    intro a ha he
    refine (h _ (edge_iff_mem_edges.1 he)).resolve_left ?_
    have := hmin a ha
    simp only
    omega
  obtain ⟨u, hu, he⟩ := hl.exists_edge hd
  refine ⟨d, hd, (hinto u hu he).1, hl.forall_mem hd (fun l hr => hr.target_mem) ?_⟩
  intro a ha b hb he hdom
  by_cases hbd : d = b
  · subst hbd
    exact (hinto a ha he).2
  · exact hdom.of_edge he hbd

end Function

end Pathwise
