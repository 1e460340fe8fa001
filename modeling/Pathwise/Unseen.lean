/-!
# Pathwise.Unseen

The measure by which graph searches end: how many candidates a search has not met yet. Meeting a
new one makes it smaller.

A search over a graph with cycles is not a recursion over any data. What bounds it is that it
never enters a node twice: the list of nodes that have been met grows, and the number of nodes
that are left, `unseen`, goes down with each. Reachability of blocks, the search for basic paths
and the walk that shows them to a visitor all end by it.
-/

namespace Pathwise

/-- How many entries of `all` are not in `seen`. -/
def unseen (all seen : List Nat) : Nat := all.countP fun x => x ∉ seen

/-- Meeting more never makes the count larger. -/
theorem unseen_cons_le (all seen : List Nat) (x : Nat) :
    unseen all (x :: seen) ≤ unseen all seen := by
  unfold unseen
  refine List.countP_mono_left fun y _ hy => ?_
  simp only [decide_eq_true_eq, List.mem_cons, not_or] at hy ⊢
  exact hy.2

/-- Meeting a new entry makes the count smaller. -/
theorem unseen_cons_lt {all seen : List Nat} {x : Nat} (hx : x ∈ all) (hs : x ∉ seen) :
    unseen all (x :: seen) < unseen all seen := by
  induction all with
  | nil => simp at hx
  | cons y ys ih =>
    have mono := unseen_cons_le ys seen x
    unfold unseen at ih mono ⊢
    rw [List.countP_cons, List.countP_cons]
    -- either this entry is the one that is met, and is counted no longer, or the count of it is
    -- the same before and after
    by_cases hy : y = x
    · subst hy
      rw [if_neg (by simp), if_pos (by simpa using hs)]
      omega
    · have hx' : x ∈ ys := (List.mem_cons.1 hx).resolve_left fun h => hy h.symm
      have hlt := ih hx'
      by_cases hm : y ∈ seen
      · rw [if_neg (by simp [hm]), if_neg (by simp [hm])]
        exact hlt
      · rw [if_pos (by simp [hy, hm]), if_pos (by simp [hm])]
        omega

end Pathwise
