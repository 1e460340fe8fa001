import Pathwise.Path.Search
import Pathwise.Proofs.Typing

/-!
# Pathwise.Proofs.Search

The path search as a relation.

A state of the search is a run together with the block that it has just passed. From such a state
the search goes on to others (`Function.Next`) and finds paths of its own (`Function.Finds`). The
search finds no other paths, even if it stops at a defect (`Function.exists_finds`); a search
without defects finds the paths of all states that it gets to (`Function.mem_paths_iff`).

The relations forget the order of the search and the places where it stops. What they keep is
enough for everything that is said about single paths, and they can be compared with the graph
without a word about traces. The step from the function to the relations is taken here once, and
nothing later unfolds `Function.fanOut`.

The measure that makes the search end (`Function.left`) is used once more, for the induction along
the positions that it goes through: a relation with cycles has no induction, and the search itself
is what shows that positions do not repeat.
-/

namespace Pathwise

/-! ## Traces

Membership in a trace that is put together from others. A part counts only if nothing before it
has failed, so membership is exact for traces without defects and one-sided otherwise. -/

namespace Trace

variable {t : Trace} {u : Unit → Trace} {q : BasicPath}

/-- Two searches in a row meet no defect if neither does. -/
theorem outcome_append_ok :
    (t.append u).outcome = .ok () ↔ t.outcome = .ok () ∧ (u ()).outcome = .ok () := by
  rw [outcome_append]
  cases t.outcome <;> simp

/-- Two searches in a row find the paths of both, if the first one meets no defect. If it does,
the second one is not made. -/
theorem mem_append (h : t.outcome = .ok ()) :
    q ∈ (t.append u).toList ↔ q ∈ t.toList ∨ q ∈ (u ()).toList := by
  rw [toList_append, h, List.mem_append]

theorem mem_or_mem_of_append (h : q ∈ (t.append u).toList) : q ∈ t.toList ∨ q ∈ (u ()).toList := by
  rw [toList_append, List.mem_append] at h
  refine h.imp_right fun h => ?_
  split at h
  · exact h
  · cases h

theorem outcome_concat_ok {α : Type} {f : α → Trace} {as : List α} :
    (concat f as).outcome = .ok () ↔ ∀ a ∈ as, (f a).outcome = .ok () := by
  induction as with
  | nil => simp [concat, outcome]
  | cons a as ih => rw [concat, outcome_append_ok, ih, List.forall_mem_cons]

/-- Searches for the items of a list find the paths of each. -/
theorem mem_concat {α : Type} {f : α → Trace} {as : List α}
    (h : (concat f as).outcome = .ok ()) :
    q ∈ (concat f as).toList ↔ ∃ a ∈ as, q ∈ (f a).toList := by
  induction as with
  | nil => simp [concat, toList]
  | cons a as ih =>
      rw [concat, outcome_append_ok] at h
      rw [concat, mem_append h.1, ih h.2]
      simp

theorem exists_mem_of_concat {α : Type} {f : α → Trace} {as : List α}
    (h : q ∈ (concat f as).toList) : ∃ a ∈ as, q ∈ (f a).toList := by
  induction as with
  | nil => cases h
  | cons a as ih =>
      rcases mem_or_mem_of_append h with h | h
      · exact ⟨a, List.mem_cons_self, h⟩
      · obtain ⟨c, hc, hq⟩ := ih h
        exact ⟨c, List.mem_cons_of_mem a hc, hq⟩

theorem outcome_ofResult_ok {x : Except VerifyError (Option BasicPath)} :
    (ofResult x).outcome = .ok () ↔ ∃ o, x = .ok o := by
  rcases x with e | _ | q <;> simp [ofResult, outcome, one]

theorem mem_ofResult {x : Except VerifyError (Option BasicPath)} :
    q ∈ (ofResult x).toList ↔ x = .ok (some q) := by
  rcases x with e | _ | q' <;> simp [ofResult, toList, one, eq_comm]

/-- All paths are collected if no defect is met. -/
theorem collect_eq_ok {qs : List BasicPath} (h : t.collect = .ok qs) :
    t.outcome = .ok () ∧ t.toList = qs := by
  obtain ⟨ho, hl⟩ := seq_eq_ok_iff.1 h
  exact ⟨ho, Except.ok.inj hl⟩

end Trace

/-! ## Paths that end inside a block

The statements of a block are looked at one after the other. A path up to a statement has the
statements before it, and nothing is known of those that follow. -/

section Inside

variable {p : Program} {r : Run} {b : Block} {q : BasicPath}

/-- A path that ends inside a block runs up to a statement with an obligation. The statements
`before` belong to the block and have been looked at already. -/
theorem Program.exists_of_mem_inside {before rest : List Statement}
    (hq : q ∈ (p.inside r b before rest).toList) :
    ∃ front a back obligation kind, rest = front ++ a :: back ∧
      p.obligation? a = .ok (some (obligation, kind)) ∧
      q = (r.through b (before ++ front)).path obligation kind := by
  induction rest generalizing before with
  | nil => cases hq
  | cons a rest ih =>
      rcases Trace.mem_or_mem_of_append hq with hq | hq
      · rw [Trace.mem_ofResult] at hq
        cases ha : p.obligation? a with
        | error e => simp [ha, Except.map] at hq
        | ok o =>
            rcases o with _ | ⟨obligation, kind⟩
            · simp [ha, Except.map] at hq
            · simp only [ha, Except.map, Option.map_some, Except.ok.injEq,
                Option.some.injEq] at hq
              exact ⟨[], a, rest, obligation, kind, rfl, ha, by rw [List.append_nil, hq]⟩
      · obtain ⟨front, c, back, obligation, kind, rfl, hc, rfl⟩ := ih hq
        exact ⟨a :: front, c, back, obligation, kind, rfl, hc, by simp⟩

/-- If the search inside a block meets no defect, it finds one path for each statement with
an obligation, and the path runs up to that statement. -/
theorem Program.mem_inside {before rest : List Statement}
    (h : (p.inside r b before rest).outcome = .ok ()) :
    q ∈ (p.inside r b before rest).toList ↔
      ∃ front a back obligation kind, rest = front ++ a :: back ∧
        p.obligation? a = .ok (some (obligation, kind)) ∧
        q = (r.through b (before ++ front)).path obligation kind := by
  refine ⟨exists_of_mem_inside, ?_⟩
  rintro ⟨front, c, back, obligation, kind, hrest, hc, rfl⟩
  induction front generalizing before rest with
  | nil =>
      subst hrest
      rw [List.nil_append, inside, Trace.outcome_append_ok] at h
      rw [List.nil_append, inside, Trace.mem_append h.1, Trace.mem_ofResult]
      exact Or.inl (by simp [hc, Except.map])
  | cons a front ih =>
      subst hrest
      rw [List.cons_append, inside, Trace.outcome_append_ok] at h
      rw [List.cons_append, inside, Trace.mem_append h.1, List.append_cons]
      exact Or.inr (ih h.2 rfl)

/-- The search inside a block meets no defect if none of the statements has one. -/
theorem Program.outcome_inside_ok {before rest : List Statement} :
    (p.inside r b before rest).outcome = .ok () ↔ ∀ a ∈ rest, ∃ o, p.obligation? a = .ok o := by
  induction rest generalizing before with
  | nil => simp [inside, Trace.outcome]
  | cons a rest ih =>
      rw [inside, Trace.outcome_append_ok, Trace.outcome_ofResult_ok, ih, List.forall_mem_cons]
      refine and_congr_left fun _ => ?_
      cases p.obligation? a <;> simp [Except.map]

end Inside

/-! ## States of the search

The two relations, and the search beyond a single edge. `Function.beyond` is the body of the loop
over successors with a name of its own; the equation `fanOut_eq` is the last time that the
recursion is unfolded. -/

/-- A state of the search: the run and the block it has just passed. -/
abbrev Position := Run × Block

namespace Function

variable {p : Program} {f : Function}

/-- The search goes on from one position to another, over an edge of the block where it is. Edges
to the exit and to open loop heads end there. -/
inductive Next (f : Function) : Position → Position → Prop where
  /-- A basic block extends the run. -/
  | basic {r : Run} {b c : Block} {j : BlockId} (hj : j ∈ b.successors)
      (hc : f.block? j = some c) (hk : c.kind = .basic) : Next f (r, b) (r.extend c, c)
  /-- A loop head that is not open starts a run. -/
  | head {r : Run} {b c : Block} {j : BlockId} {invariant : Expr} {ranking : List Expr}
      (hj : j ∈ b.successors) (hc : f.block? j = some c)
      (hk : c.kind = .loopHead invariant ranking) (ho : j ∉ r.opened) :
      Next f (r, b) ((r.atHead j invariant).through c c.statements, c)

/-- The search finds a path at a position, before it goes on. The path ends on an edge of the
block there, or inside of a block that an edge leads to. -/
inductive Finds (p : Program) (f : Function) : Position → BasicPath → Prop where
  /-- The path ends on an edge. -/
  | arrival {r : Run} {b : Block} {j : BlockId} {q : BasicPath} (hj : j ∈ b.successors)
      (hq : f.arrival r b j = .ok (some q)) : Finds p f (r, b) q
  /-- The path ends inside a basic block that comes next. -/
  | basic {r : Run} {b c : Block} {j : BlockId} {q : BasicPath} (hj : j ∈ b.successors)
      (hc : f.block? j = some c) (hk : c.kind = .basic)
      (hq : q ∈ (p.inside r c [] c.statements).toList) : Finds p f (r, b) q
  /-- The path starts at a loop head that comes next and ends inside it. -/
  | head {r : Run} {b c : Block} {j : BlockId} {invariant : Expr} {ranking : List Expr}
      {q : BasicPath} (hj : j ∈ b.successors) (hc : f.block? j = some c)
      (hk : c.kind = .loopHead invariant ranking) (ho : j ∉ r.opened)
      (hq : q ∈ (p.inside (r.atHead j invariant) c [] c.statements).toList) : Finds p f (r, b) q

/-- What the search does beyond the edge to the block at a position. -/
def beyond (f : Function) (p : Program) (r : Run) (id : BlockId) : Trace :=
  match f.block? id with
  | none => .fail (.graph f.name (.missingBlock id))
  | some target =>
    match target.kind with
    | .basic =>
      if target.id ∈ r.visited then .fail (.graph f.name (.cycle target.label))
      else
        (p.inside r target [] target.statements).append fun _ =>
          f.fanOut p (r.extend target) target
    | .loopHead invariant _ =>
      if id ∈ r.opened then .done
      else
        (p.inside (r.atHead id invariant) target [] target.statements).append fun _ =>
          f.fanOut p ((r.atHead id invariant).through target target.statements) target
    | _ => .done

/-- The search from a block: the edges first, and then what is beyond them. Paths that end on an
edge of the block come before all paths that go further. -/
theorem fanOut_eq (f : Function) (p : Program) (r : Run) (b : Block) :
    f.fanOut p r b =
      if b.successors.isEmpty then .fail (.graph f.name (.deadEnd b.label))
      else
        (Trace.concat (fun id => .ofResult (f.arrival r b id)) b.successors).append fun _ =>
          Trace.concat (f.beyond p r) b.successors := by
  rw [fanOut]
  -- both sides make the same trace of edges, and differ in how the trace beyond an edge is
  -- written
  congr 3
  funext _
  congr 1
  funext id
  unfold beyond
  split
  · next h => rw [h]
  · next target h =>
      rw [h]
      dsimp only
      cases target.kind <;> simp only [dite_eq_ite]

section Beyond

variable {r : Run} {b c : Block} {j : BlockId} {q : BasicPath}

theorem beyond_basic (hc : f.block? j = some c) (hk : c.kind = .basic) :
    f.beyond p r j =
      if c.id ∈ r.visited then .fail (.graph f.name (.cycle c.label))
      else (p.inside r c [] c.statements).append fun _ => f.fanOut p (r.extend c) c := by
  unfold beyond
  simp only [hc, hk]

theorem beyond_head {invariant : Expr} {ranking : List Expr} (hc : f.block? j = some c)
    (hk : c.kind = .loopHead invariant ranking) :
    f.beyond p r j =
      if j ∈ r.opened then .done
      else
        (p.inside (r.atHead j invariant) c [] c.statements).append fun _ =>
          f.fanOut p ((r.atHead j invariant).through c c.statements) c := by
  unfold beyond
  simp only [hc, hk]

theorem outcome_beyond_basic (hc : f.block? j = some c) (hk : c.kind = .basic) :
    (f.beyond p r j).outcome = .ok () ↔
      c.id ∉ r.visited ∧ (p.inside r c [] c.statements).outcome = .ok () ∧
        (f.fanOut p (r.extend c) c).outcome = .ok () := by
  rw [beyond_basic hc hk]
  by_cases hv : c.id ∈ r.visited
  · simp [hv, Trace.outcome]
  · rw [if_neg hv, Trace.outcome_append_ok]
    exact (and_iff_right hv).symm

theorem outcome_beyond_head {invariant : Expr} {ranking : List Expr} (hc : f.block? j = some c)
    (hk : c.kind = .loopHead invariant ranking) (ho : j ∉ r.opened) :
    (f.beyond p r j).outcome = .ok () ↔
      (p.inside (r.atHead j invariant) c [] c.statements).outcome = .ok () ∧
        (f.fanOut p ((r.atHead j invariant).through c c.statements) c).outcome = .ok () := by
  rw [beyond_head hc hk, if_neg ho, Trace.outcome_append_ok]

theorem mem_beyond_basic (hc : f.block? j = some c) (hk : c.kind = .basic)
    (h : (f.beyond p r j).outcome = .ok ()) :
    q ∈ (f.beyond p r j).toList ↔
      q ∈ (p.inside r c [] c.statements).toList ∨ q ∈ (f.fanOut p (r.extend c) c).toList := by
  obtain ⟨hv, hin, -⟩ := (outcome_beyond_basic hc hk).1 h
  rw [beyond_basic hc hk, if_neg hv, Trace.mem_append hin]

theorem mem_beyond_head {invariant : Expr} {ranking : List Expr} (hc : f.block? j = some c)
    (hk : c.kind = .loopHead invariant ranking) (ho : j ∉ r.opened)
    (h : (f.beyond p r j).outcome = .ok ()) :
    q ∈ (f.beyond p r j).toList ↔
      q ∈ (p.inside (r.atHead j invariant) c [] c.statements).toList ∨
        q ∈ (f.fanOut p ((r.atHead j invariant).through c c.statements) c).toList := by
  obtain ⟨hin, -⟩ := (outcome_beyond_head hc hk ho).1 h
  rw [beyond_head hc hk, if_neg ho, Trace.mem_append hin]

/-- A search meets no defect if the block has successors and no defect is on or beyond an
edge to one of them. -/
theorem outcome_fanOut_ok :
    (f.fanOut p r b).outcome = .ok () ↔
      b.successors ≠ [] ∧ (∀ j ∈ b.successors, ∃ o, f.arrival r b j = .ok o) ∧
        ∀ j ∈ b.successors, (f.beyond p r j).outcome = .ok () := by
  rw [fanOut_eq]
  by_cases he : b.successors = []
  · simp [he, Trace.outcome]
  · rw [if_neg (by simpa using he), Trace.outcome_append_ok, Trace.outcome_concat_ok,
      Trace.outcome_concat_ok]
    simp only [Trace.outcome_ofResult_ok]
    exact (and_iff_right he).symm

end Beyond

/-! ## What the search finds

One step of the search, first in the direction that always holds, with a measure that goes down,
and then as an equivalence for a search without defects. -/

/-- What is left for the search: loop heads to open, and basic blocks to visit. It gets smaller in
the lexicographic order, because a new loop head forgets the visited blocks. -/
def left (f : Function) (m : Position) : Nat × Nat :=
  (unseen (List.range f.blocks.length) m.1.opened, unseen f.labels m.1.visited)

/-- The search goes on to positions where less is left, as long as it repeats no block. The loop
heads to open are the same, and there is one block less to visit. -/
theorem left_extend {r : Run} {b c : Block} {j : BlockId} (hc : f.block? j = some c)
    (hv : c.id ∉ r.visited) :
    Prod.Lex (· < ·) (· < ·) (f.left (r.extend c, c)) (f.left (r, b)) := by
  refine Prod.Lex.right _ (unseen_cons_lt ?_ hv)
  exact List.mem_map_of_mem (List.mem_of_getElem? hc)

/-- Opening a loop head leaves fewer of them, however many blocks the new run may visit. -/
theorem left_atHead {r : Run} {b c : Block} {j : BlockId} {invariant : Expr}
    (hc : f.block? j = some c) (ho : j ∉ r.opened) :
    Prod.Lex (· < ·) (· < ·) (f.left ((r.atHead j invariant).through c c.statements, c))
      (f.left (r, b)) := by
  refine Prod.Lex.left _ _ (unseen_cons_lt (List.mem_range.2 ?_) ho)
  exact (List.getElem?_eq_some_iff.1 hc).1

section Finds

variable {m n : Position} {q : BasicPath}

/-- A search without defects meets none further on, since what it does at the next position is a
part of it. -/
theorem Next.outcome (hn : f.Next m n) (h : (f.fanOut p m.1 m.2).outcome = .ok ()) :
    (f.fanOut p n.1 n.2).outcome = .ok () := by
  obtain ⟨-, -, hb⟩ := outcome_fanOut_ok.1 h
  cases hn with
  | basic hj hc hk => exact ((outcome_beyond_basic hc hk).1 (hb _ hj)).2.2
  | head hj hc hk ho => exact ((outcome_beyond_head hc hk ho).1 (hb _ hj)).2

/-- Beyond an edge, paths are found in the block there, or further on. -/
theorem finds_of_mem_beyond {r : Run} {b : Block} {j : BlockId} (hj : j ∈ b.successors)
    (hq : q ∈ (f.beyond p r j).toList) :
    f.Finds p (r, b) q ∨ ∃ n, f.Next (r, b) n ∧
      Prod.Lex (· < ·) (· < ·) (f.left n) (f.left (r, b)) ∧ q ∈ (f.fanOut p n.1 n.2).toList := by
  cases hc : f.block? j with
  | none => simp [beyond, hc, Trace.toList] at hq
  | some c =>
      cases hk : c.kind with
      | basic =>
          rw [beyond_basic hc hk] at hq
          split at hq
          · cases hq
          · next hv =>
              rcases Trace.mem_or_mem_of_append hq with hq | hq
              · exact Or.inl (.basic hj hc hk hq)
              · exact Or.inr ⟨_, .basic hj hc hk, left_extend hc hv, hq⟩
      | loopHead invariant ranking =>
          rw [beyond_head hc hk] at hq
          split at hq
          · cases hq
          · next ho =>
              rcases Trace.mem_or_mem_of_append hq with hq | hq
              · exact Or.inl (.head hj hc hk ho hq)
              · exact Or.inr ⟨_, .head hj hc hk ho, left_atHead hc ho, hq⟩
      | _ => simp [beyond, hc, hk, Trace.toList] at hq

/-- The search at a position finds its own paths and those of the positions that come
next. It may stop at a defect before it has found them all. -/
theorem finds_of_mem_fanOut (hq : q ∈ (f.fanOut p m.1 m.2).toList) :
    f.Finds p m q ∨ ∃ n, f.Next m n ∧
      Prod.Lex (· < ·) (· < ·) (f.left n) (f.left m) ∧ q ∈ (f.fanOut p n.1 n.2).toList := by
  obtain ⟨r, b⟩ := m
  rw [fanOut_eq] at hq
  split at hq
  · cases hq
  · rcases Trace.mem_or_mem_of_append hq with hq | hq
    · obtain ⟨j, hj, hq⟩ := Trace.exists_mem_of_concat hq
      exact Or.inl (.arrival hj (Trace.mem_ofResult.1 hq))
    · obtain ⟨j, hj, hq⟩ := Trace.exists_mem_of_concat hq
      exact finds_of_mem_beyond hj hq

/-- Without defects, the search at a position finds all of these paths. -/
theorem mem_fanOut (h : (f.fanOut p m.1 m.2).outcome = .ok ()) :
    q ∈ (f.fanOut p m.1 m.2).toList ↔
      f.Finds p m q ∨ ∃ n, f.Next m n ∧ q ∈ (f.fanOut p n.1 n.2).toList := by
  constructor
  · intro hq
    exact (finds_of_mem_fanOut hq).imp_right fun ⟨n, hn, _, hq⟩ => ⟨n, hn, hq⟩
  · intro hq
    obtain ⟨r, b⟩ := m
    -- since nothing fails, all parts of the trace contribute their paths
    obtain ⟨hne, ha, hb⟩ := outcome_fanOut_ok.1 h
    rw [fanOut_eq, if_neg (by simpa using hne)] at h ⊢
    obtain ⟨harrive, hbeyond⟩ := Trace.outcome_append_ok.1 h
    rw [Trace.mem_append harrive, Trace.mem_concat harrive, Trace.mem_concat hbeyond]
    simp only [Trace.mem_ofResult]
    rcases hq with hq | ⟨n, hn, hq⟩
    · cases hq with
      | arrival hj hq => exact Or.inl ⟨_, hj, hq⟩
      | basic hj hc hk hq =>
          exact Or.inr ⟨_, hj, (mem_beyond_basic hc hk (hb _ hj)).2 (Or.inl hq)⟩
      | head hj hc hk ho hq =>
          exact Or.inr ⟨_, hj, (mem_beyond_head hc hk ho (hb _ hj)).2 (Or.inl hq)⟩
    · cases hn with
      | basic hj hc hk =>
          exact Or.inr ⟨_, hj, (mem_beyond_basic hc hk (hb _ hj)).2 (Or.inr hq)⟩
      | head hj hc hk ho =>
          exact Or.inr ⟨_, hj, (mem_beyond_head hc hk ho (hb _ hj)).2 (Or.inr hq)⟩

end Finds

/-! ## Where the search gets to

The positions that can be reached from the entry by steps of the search, and from them the paths
of a function. -/

/-- The search for the paths of a function gets to a position. -/
inductive Visits (f : Function) : Position → Prop where
  | entry {e : Block} {condition : Expr} {ranking : List Expr} (he : f.block? f.entry = some e)
      (hk : e.kind = .precondition condition ranking) : Visits f (.atEntry condition, e)
  | next {m n : Position} (hm : Visits f m) (hn : f.Next m n) : Visits f n

section Visits

variable {q : BasicPath}

/-- The search for paths starts at the entry, unless the entry is defective. -/
theorem paths_eq_or (f : Function) (p : Program) :
    (∃ e, f.paths p = .fail e) ∨ ∃ e condition ranking, f.block? f.entry = some e ∧
      e.kind = .precondition condition ranking ∧
      f.paths p = f.fanOut p (.atEntry condition) e := by
  unfold paths
  cases he : f.block? f.entry with
  | none => exact Or.inl ⟨_, rfl⟩
  | some e =>
      cases hk : e.kind with
      | precondition condition ranking =>
          simp only [hk]
          split
          · exact Or.inl ⟨_, rfl⟩
          · exact Or.inr ⟨e, condition, ranking, rfl, hk, rfl⟩
      | _ =>
          simp only [hk]
          exact Or.inl ⟨_, rfl⟩

/-- A search without defects starts at the entry. -/
theorem paths_eq (h : (f.paths p).outcome = .ok ()) :
    ∃ e condition ranking, f.block? f.entry = some e ∧
      e.kind = .precondition condition ranking ∧
      f.paths p = f.fanOut p (.atEntry condition) e := by
  rcases paths_eq_or f p with ⟨e, heq⟩ | heq
  · rw [heq] at h
    cases h
  · exact heq

/-- The search finds all that there is to find at the positions it gets to. By induction along the
positions, from the entry on. -/
theorem Visits.outcome {m : Position} (hm : f.Visits m) (h : (f.paths p).outcome = .ok ()) :
    (f.fanOut p m.1 m.2).outcome = .ok () ∧
      ∀ q ∈ (f.fanOut p m.1 m.2).toList, q ∈ (f.paths p).toList := by
  induction hm with
  | entry he hk =>
      obtain ⟨e', condition', ranking', he', hk', heq⟩ := paths_eq h
      cases he.symm.trans he'
      cases hk.symm.trans hk'
      rw [heq] at h ⊢
      exact ⟨h, fun q hq => hq⟩
  | next _ hn ih =>
      exact ⟨hn.outcome ih.1, fun q hq => ih.2 q ((mem_fanOut ih.1).2 (Or.inr ⟨_, hn, hq⟩))⟩

/-- A path comes from a position further on, if not from this one. By induction on what is left
for the search, as the positions alone give no induction. -/
theorem exists_finds_of_fanOut {m : Position} (hm : f.Visits m)
    (hq : q ∈ (f.fanOut p m.1 m.2).toList) : ∃ n, f.Visits n ∧ f.Finds p n q := by
  rcases finds_of_mem_fanOut hq with hq | ⟨n, hn, hlt, hq⟩
  · exact ⟨m, hm, hq⟩
  · exact exists_finds_of_fanOut (hm.next hn) hq
termination_by f.left m
decreasing_by exact hlt

/-- A path that the search finds is found at some position that it gets to. Nothing is assumed
about the rest of the search, which may meet a defect later. -/
theorem exists_finds (hq : q ∈ (f.paths p).toList) : ∃ m, f.Visits m ∧ f.Finds p m q := by
  rcases paths_eq_or f p with ⟨e, heq⟩ | ⟨e, condition, ranking, he, hk, heq⟩
  · rw [heq] at hq
    cases hq
  · rw [heq] at hq
    exact exists_finds_of_fanOut (.entry he hk) hq

/-- The paths of a function are those found at the positions that the search gets to. From here on
the order of the search does not matter any more. -/
theorem mem_paths_iff (h : (f.paths p).outcome = .ok ()) :
    q ∈ (f.paths p).toList ↔ ∃ m, f.Visits m ∧ f.Finds p m q := by
  refine ⟨exists_finds, ?_⟩
  rintro ⟨m, hm, hq⟩
  obtain ⟨ho, hsub⟩ := hm.outcome h
  exact hsub q ((mem_fanOut ho).2 (Or.inl hq))

end Visits

end Function

end Pathwise
