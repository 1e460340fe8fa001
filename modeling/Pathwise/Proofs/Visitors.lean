import Pathwise.Path.Walk
import Pathwise.Proofs.Search

/-!
# Pathwise.Proofs.Visitors

The walk that shows paths to a visitor is a visit of the list of all paths.

There are three layers. `Function.walk` is what runs. It finds paths and calls the visitor in
between, and its loops hand the visitor's answers up from one to the next.
`Function.paths` is the search without a visitor, a trace of all paths with the defect that
ends it, if there is one. `Trace.visit` and `Trace.visitList` show the paths of a given trace
or list, in a single loop that has no search in it.

`Shows see x t` says that the computation `x` does what a visit of the trace `t` does. It
holds of each loop of the walk and the trace of its paths (`Shows.bind` is the step: an answer
other than `goOn` has to be handed up, and it has to be handed up unchanged), and so of the
walk as a whole, by induction along its recursion (`Function.shows_walk`). `Trace.Ends` says
the same in words: the visitor sees the paths of the list in order up to the first one at
which it stops or fails, and none after that.
-/

namespace Pathwise

/-! ## Computations on a state

A visitor has a state of its own: counters, a report, a cache, or the world with a solver in
it. No more is asked of its monad than that a computation can be run from a state, and that
this respects results and sequencing. -/

/-- The computations of a monad run on a state. -/
class Stateful (m : Type → Type) [Monad m] (W : outParam Type) where
  /-- The result of a computation from a state, and the state after it. -/
  run {α : Type} : m α → W → α × W
  run_pure {α : Type} (a : α) (w : W) : run (pure a) w = (a, w)
  run_bind {α β : Type} (x : m α) (f : α → m β) (w : W) :
    run (x >>= f) w = run (f (run x w).1) (run x w).2

namespace Stateful

instance {W : Type} : Stateful (StateM W) W where
  run x w := x.run w
  run_pure _ _ := rfl
  run_bind _ _ _ := rfl

/-- A further layer of state is put in front of the state below. -/
instance {S W : Type} {m : Type → Type} [Monad m] [Stateful m W] :
    Stateful (StateT S m) (S × W) where
  run x w := (((run (x.run w.1) w.2).1.1), (run (x.run w.1) w.2).1.2, (run (x.run w.1) w.2).2)
  run_pure a w := by simp [run_pure]
  run_bind x f w := by simp [run_bind]

variable {m : Type → Type} [Monad m] {W S α β : Type} [Stateful m W]

theorem run_bind_eq {x : m α} {f : α → m β} {w w' : W} {b : β} (h : run (x >>= f) w = (b, w')) :
    ∃ a w₁, run x w = (a, w₁) ∧ run (f a) w₁ = (b, w') := by
  rw [run_bind] at h
  exact ⟨_, _, rfl, h⟩

theorem run_pure_eq {a b : α} {w w' : W} (h : run (pure a : m α) w = (b, w')) :
    a = b ∧ w = w' := by
  rw [run_pure] at h
  exact Prod.mk.inj h

/-- A computation with a layer of state, started in the layer below. -/
theorem run_stateT {x : StateT S m α} {s s' : S} {w w' : W} {a : α}
    (h : run x (s, w) = (a, s', w')) : run (x.run s) w = ((a, s'), w') := by
  obtain ⟨ha, hs⟩ := Prod.mk.inj h
  obtain ⟨hs, hw⟩ := Prod.mk.inj hs
  exact Prod.ext (Prod.ext ha hs) hw

@[simp] theorem run_lift (x : m α) (s : S) (w : W) :
    run (liftM x : StateT S m α) (s, w) = ((run x w).1, s, (run x w).2) := by
  change (((run (x >>= fun a => pure (a, s)) w).1.1), (run (x >>= fun a => pure (a, s)) w).1.2,
    (run (x >>= fun a => pure (a, s)) w).2) = _
  simp only [run_bind, run_pure]

@[simp] theorem run_modify (g : S → S) (s : S) (w : W) :
    run (modify g : StateT S m PUnit) (s, w) = (.unit, g s, w) := by
  change (((run (pure (PUnit.unit, g s) : m (PUnit × S)) w).1.1),
    (run (pure (PUnit.unit, g s) : m (PUnit × S)) w).1.2,
    (run (pure (PUnit.unit, g s) : m (PUnit × S)) w).2) = _
  simp only [run_pure]

end Stateful

open Stateful

/-! ## Visits of traces and of lists

A visit without a search: the paths are there already, and one loop shows them. -/

namespace Trace

section Visit

variable {m : Type → Type} [Monad m]

/-- Show the paths of a trace to a visitor one by one, until it stops or fails. The rest of the
trace is computed only if the visitor goes on. -/
def visit (see : Visitor m) : Trace → m (Except VerifyError Flow)
  | done => return .ok .goOn
  | fail e => return .error e
  | emit q rest => do
    match ← see q with
    | .error e => return .error e
    | .ok .stop => return .ok .stop
    | .ok .goOn => visit see (rest ())

/-- Show the paths of a list to a visitor one by one; at the end of the list comes the given
outcome. -/
def visitList (see : Visitor m) (last : Except VerifyError Unit) :
    List BasicPath → m (Except VerifyError Flow)
  | [] => return last.map fun _ => .goOn
  | q :: qs => do
    match ← see q with
    | .error e => return .error e
    | .ok .stop => return .ok .stop
    | .ok .goOn => visitList see last qs

/-- Visiting a trace on demand is visiting the full list of its paths. The outcome of the search
comes last, after all paths have been seen. -/
theorem visit_eq (see : Visitor m) (t : Trace) :
    t.visit see = visitList see t.outcome t.toList := by
  induction t with
  | done => rfl
  | fail e => rfl
  | emit q rest ih => simp only [visit, visitList, toList, outcome, ih]

end Visit

variable {W : Type} {m : Type → Type} [Monad m] [Stateful m W] {see : Visitor m}
  {last : Except VerifyError Unit} {qs front back : List BasicPath} {q : BasicPath} {w w₁ w' : W}
  {r : Except VerifyError Flow}

/-- The visitor goes on at all paths of a list. Its state passes from each to the next. -/
inductive GoesOn (see : Visitor m) : W → List BasicPath → W → Prop where
  | nil (w : W) : GoesOn see w [] w
  | cons {w w₁ w' : W} {q : BasicPath} {qs : List BasicPath}
      (hq : run (see q) w = (.ok .goOn, w₁)) (hr : GoesOn see w₁ qs w') :
      GoesOn see w (q :: qs) w'

/-- What a visit of a list of paths comes to, where `last` is met at the end of the list. The
cases exclude each other, and one of them is always true. -/
inductive Ends (see : Visitor m) (last : Except VerifyError Unit) (qs : List BasicPath) (w : W) :
    Except VerifyError Flow → W → Prop where
  /-- The visitor stops at a path, after it has gone on at all paths before it. -/
  | stopped {front back : List BasicPath} {q : BasicPath} {w₁ w' : W}
      (hqs : qs = front ++ q :: back) (hf : GoesOn see w front w₁)
      (hq : run (see q) w₁ = (.ok .stop, w')) : Ends see last qs w (.ok .stop) w'
  /-- The visitor fails at a path, after it has gone on at all paths before it. -/
  | failed {front back : List BasicPath} {q : BasicPath} {e : VerifyError} {w₁ w' : W}
      (hqs : qs = front ++ q :: back) (hf : GoesOn see w front w₁)
      (hq : run (see q) w₁ = (.error e, w')) : Ends see last qs w (.error e) w'
  /-- The visitor goes on at all paths and meets what is at the end. -/
  | finished {w' : W} (hf : GoesOn see w qs w') :
      Ends see last qs w (last.map fun _ => .goOn) w'

theorem GoesOn.run_visitList (h : GoesOn see w front w₁) (rest : List BasicPath) :
    run (visitList see last (front ++ rest)) w = run (visitList see last rest) w₁ := by
  induction h with
  | nil w => rfl
  | cons hq _ ih =>
      rw [List.cons_append, visitList, run_bind, hq]
      exact ih

/-- A visit that ends in one of the three ways is what the loop does. -/
theorem Ends.run_visitList (h : Ends see last qs w r w') :
    run (visitList see last qs) w = (r, w') := by
  cases h with
  | stopped hqs hf hq =>
      rw [hqs, hf.run_visitList, visitList, run_bind, hq]
      exact run_pure _ _
  | failed hqs hf hq =>
      rw [hqs, hf.run_visitList, visitList, run_bind, hq]
      exact run_pure _ _
  | finished hf =>
      rw [← List.append_nil qs, hf.run_visitList, visitList]
      exact run_pure _ _

/-- A path at which the visitor goes on may be put in front. -/
theorem Ends.cons (hq : run (see q) w = (.ok .goOn, w₁)) (h : Ends see last qs w₁ r w') :
    Ends see last (q :: qs) w r w' := by
  cases h with
  | stopped hqs hf hs => exact .stopped (by rw [hqs, List.cons_append]) (.cons hq hf) hs
  | failed hqs hf hs => exact .failed (by rw [hqs, List.cons_append]) (.cons hq hf) hs
  | finished hf => exact .finished (.cons hq hf)

/-- Every visit comes to something: it goes through, stops at a path, or fails at one. -/
theorem exists_ends (see : Visitor m) (last : Except VerifyError Unit) (qs : List BasicPath)
    (w : W) : ∃ r w', Ends see last qs w r w' := by
  induction qs generalizing w with
  | nil => exact ⟨_, w, .finished (.nil w)⟩
  | cons q qs ih =>
      cases hq : run (see q) w with
      | mk o w₁ =>
          rcases o with e | _ | _
          · exact ⟨_, w₁, .failed (List.nil_append _).symm (.nil w) hq⟩
          · obtain ⟨r, w', h⟩ := ih w₁
            exact ⟨r, w', h.cons hq⟩
          · exact ⟨_, w₁, .stopped (List.nil_append _).symm (.nil w) hq⟩

/-- The loop over a list of paths does what `Ends` says, and nothing else. From here on visits are
reasoned about by their three ways to end. -/
theorem run_visitList_iff : run (visitList see last qs) w = (r, w') ↔ Ends see last qs w r w' := by
  refine ⟨fun h => ?_, Ends.run_visitList⟩
  obtain ⟨r₀, w₀, h₀⟩ := exists_ends see last qs w
  obtain ⟨rfl, rfl⟩ := Prod.mk.inj (h.symm.trans h₀.run_visitList)
  exact h₀

/-- A visitor that always goes on does so at the paths of every list. -/
theorem goesOn_of_always (h : ∀ q (w : W), (run (see q) w).1 = .ok .goOn) (w : W)
    (qs : List BasicPath) : ∃ w', GoesOn see w qs w' := by
  induction qs generalizing w with
  | nil => exact ⟨w, .nil w⟩
  | cons q qs ih =>
      obtain ⟨w', hrest⟩ := ih (run (see q) w).2
      exact ⟨w', .cons (Prod.ext (h q w) rfl) hrest⟩

/-- The recorder ends up with all paths that it is shown, in order. -/
theorem goesOn_recorder (seen qs : List BasicPath) : GoesOn recorder seen qs (seen ++ qs) := by
  induction qs generalizing seen with
  | nil =>
      rw [List.append_nil]
      exact .nil seen
  | cons q qs ih =>
      rw [List.append_cons]
      exact .cons rfl (ih (seen ++ [q]))

end Trace

/-! ## Computations that show a trace

The walk is put together from computations that each show some of the paths. What has to be
proved of it is that the answers get through: a computation that comes second must not run
when the first one has stopped or failed, and the answer of the first one has to be the answer
of the whole. -/

section Shows

variable {W : Type} {m : Type → Type} [Monad m] [Stateful m W] {see : Visitor m}
  {x : m (Except VerifyError Flow)} {t : Trace} {u : Unit → Trace} {w w' : W}

/-- The computation does what a visit of the trace does, from every state. This relates the
recursion that calls a visitor to the list of paths. -/
def Shows (see : Visitor m) (x : m (Except VerifyError Flow)) (t : Trace) : Prop :=
  ∀ w : W, run x w = run (t.visit see) w

theorem Shows.done (see : Visitor m) : Shows see (pure (.ok .goOn)) .done := fun _ => rfl

theorem Shows.fail (see : Visitor m) (e : VerifyError) :
    Shows see (pure (.error e)) (.fail e) := fun _ => rfl

theorem Shows.one (see : Visitor m) (q : BasicPath) : Shows see (see q) (.one q) := by
  intro w
  rw [Trace.one, Trace.visit, run_bind]
  cases hq : run (see q) w with
  | mk o w₁ => rcases o with e | _ | _ <;> exact (run_pure _ _).symm

/-- If the visitor goes on at all of a trace, the visit goes on behind it. -/
theorem Trace.run_visit_append_goOn (h : run (t.visit see) w = (.ok .goOn, w')) :
    run ((t.append u).visit see) w = run ((u ()).visit see) w' := by
  induction t generalizing w with
  | done =>
      obtain ⟨-, rfl⟩ := run_pure_eq h
      rfl
  | fail e => cases (run_pure_eq h).1
  | emit q rest ih =>
      obtain ⟨o, w₁, hq, h⟩ := run_bind_eq h
      rw [append, visit, run_bind, hq]
      rcases o with e | _ | _
      · cases (run_pure_eq h).1
      · exact ih () h
      · cases (run_pure_eq h).1

/-- If it does not, what comes behind the trace is of no matter. -/
theorem Trace.run_visit_append_of_ne {r : Except VerifyError Flow}
    (h : run (t.visit see) w = (r, w')) (hr : r ≠ .ok .goOn) :
    run ((t.append u).visit see) w = (r, w') := by
  induction t generalizing w with
  | done => exact absurd (run_pure_eq h).1.symm hr
  | fail e => exact h
  | emit q rest ih =>
      obtain ⟨o, w₁, hq, h⟩ := run_bind_eq h
      rw [append, visit, run_bind, hq]
      rcases o with e | _ | _
      · exact h
      · exact ih () h
      · exact h

/-- One computation after another. The continuation `g` has to hand up a failure and a stop as
they are; that is what a test of the answer is for. -/
theorem Shows.bind {g : Except VerifyError Flow → m (Except VerifyError Flow)}
    (hx : Shows see x t) (herror : ∀ e, g (.error e) = pure (.error e))
    (hstop : g (.ok .stop) = pure (.ok .stop)) (hgo : Shows see (g (.ok .goOn)) (u ())) :
    Shows see (x >>= g) (t.append u) := by
  intro w
  rw [run_bind]
  cases hvisit : run (t.visit see) w with
  | mk o w₁ =>
      rw [hx w, hvisit]
      rcases o with e | _ | _
      · rw [Trace.run_visit_append_of_ne hvisit (by simp), herror, run_pure]
      · rw [Trace.run_visit_append_goOn hvisit]
        exact hgo w₁
      · rw [Trace.run_visit_append_of_ne hvisit (by simp), hstop, run_pure]

end Shows

/-! ## The walk

One lemma for each loop and each function of the walk. In every one of them the three
arguments of `Shows.bind` after the first are the tests of an answer. -/

section Walk

variable {W : Type} {m : Type → Type} [Monad m] [Stateful m W]

/-- The loop over the statements of a block. -/
theorem Program.shows_walkInside (p : Program) (see : Visitor m) (r : Run) (b : Block)
    (before rest : List Statement) :
    Shows see (p.walkInside see r b before rest) (p.inside r b before rest) := by
  induction rest generalizing before with
  | nil => exact .done see
  | cons s rest ih =>
      unfold walkInside inside
      cases p.obligation? s with
      | error e => exact .fail see e
      | ok o =>
          rcases o with _ | o
          · exact ih _
          · exact (Shows.one see _).bind (fun _ => rfl) rfl (ih _)

/-- The paths of a run do not depend on the labels that it has met. These only decide where the
search goes on after the block. -/
theorem Program.inside_visited (p : Program) (r : Run) (b : Block) (visited : List BlockId)
    (before rest : List Statement) :
    p.inside { r with visited := visited } b before rest = p.inside r b before rest := by
  induction rest generalizing before with
  | nil => rfl
  | cons s rest ih =>
      rw [inside, inside, ih]
      rfl

namespace Function

variable (f : Function) (p : Program) (see : Visitor m)

/-- The loop over the edges of a block. -/
theorem shows_walkEdges (r : Run) (b : Block) (ids : List BlockId) :
    Shows see (f.walkEdges see r b ids)
      (Trace.concat (fun id => .ofResult (f.arrival r b id)) ids) := by
  induction ids with
  | nil => exact .done see
  | cons id ids ih =>
      unfold walkEdges Trace.concat
      cases f.arrival r b id with
      | error e => exact .fail see e
      | ok o =>
          rcases o with _ | q
          · exact ih
          · exact (Shows.one see q).bind (fun _ => rfl) rfl ih

/-- What the search finds when the run `r` comes to the block `b`: in the block, and from its
end on. -/
def within (r : Run) (b : Block) : Trace :=
  match f.enterBlock r b with
  | .error e => .fail e
  | .ok r' =>
    (p.inside r' b [] b.statements).append fun _ => f.fanOut p (r'.through b b.statements) b

variable {f p} {r : Run} {j : BlockId} {c : Block}

theorem beyond_eq_within_basic (hc : f.block? j = some c) (hk : c.kind = .basic) :
    f.beyond p r j = f.within p r c := by
  have hno : c.isLoopHead = false := by simp [Block.isLoopHead, hk]
  rw [beyond_basic hc hk, within, enterBlock, hno, if_neg Bool.false_ne_true]
  split
  · rfl
  · rw [← p.inside_visited r c (c.id :: r.visited)]
    rfl

theorem beyond_eq_within_head {invariant : Expr} {ranking : List Expr}
    (hc : f.block? j = some c) (hk : c.kind = .loopHead invariant ranking) (ho : j ∉ r.opened) :
    f.beyond p r j = f.within p (r.atHead j invariant) c := by
  have hyes : c.isLoopHead = true := by simp [Block.isLoopHead, hk]
  rw [beyond_head hc hk, if_neg ho, within, enterBlock, if_pos hyes]

/-- The loop over the blocks that are entered from a block is the search beyond its edges, if
the walks in the blocks are. -/
theorem shows_walkSuccessors_cons {ids : List BlockId} (hc : f.block? j = some c)
    (hbasic : ∀ hmem, c.kind = .basic → Shows see (f.walkInto p see r c hmem) (f.within p r c))
    (hhead : ∀ hmem invariant, j ∉ r.opened →
      Shows see (f.walkInto p see (r.atHead j invariant) c hmem)
        (f.within p (r.atHead j invariant) c))
    (hrest : Shows see (f.walkSuccessors p see r ids) (Trace.concat (f.beyond p r) ids)) :
    Shows see (f.walkSuccessors p see r (j :: ids)) (Trace.concat (f.beyond p r) (j :: ids)) := by
  unfold walkSuccessors Trace.concat
  split
  · next hnone => cases hc.symm.trans hnone
  · next target htarget =>
      cases hc.symm.trans htarget
      refine Shows.bind ?_ (fun _ => rfl) rfl hrest
      split
      · next hk =>
          rw [beyond_eq_within_basic hc hk]
          exact hbasic _ hk
      · next invariant ranking hk =>
          split
          · next ho =>
              rw [beyond_head hc hk, if_pos ho]
              exact .done see
          · next ho =>
              rw [beyond_eq_within_head hc hk ho]
              exact hhead _ invariant ho
      · next hnb hnh =>
          -- blocks of other kinds are not entered
          have hdone : f.beyond p r j = .done := by simp only [beyond, hc]
          rw [hdone]
          exact .done see

/-- The walk from the end of a block shows what the search finds from there. The induction is
along the recursion of the walk, with a statement for each of the three functions. -/
theorem shows_walkFrom (see : Visitor m) (r : Run) (b : Block) :
    Shows see (f.walkFrom p see r b) (f.fanOut p r b) := by
  -- one statement for each of the three functions of the walk, proved together
  refine walkFrom.induct f p see (fun r b => Shows see (f.walkFrom p see r b) (f.fanOut p r b))
    (fun r ids => Shows see (f.walkSuccessors p see r ids) (Trace.concat (f.beyond p r) ids))
    (fun r b hmem => Shows see (f.walkInto p see r b hmem) (f.within p r b))
    ?deadEnd ?edges ?nil ?missing ?cons ?repeated ?entered r b
  case deadEnd =>
    intro r b hempty
    rw [walkFrom, fanOut_eq, if_pos hempty, if_pos hempty]
    exact .fail see _
  case edges =>
    intro r b hempty ih
    rw [walkFrom, fanOut_eq, if_neg hempty, if_neg hempty]
    exact (f.shows_walkEdges see r b b.successors).bind (fun _ => rfl) rfl ih
  case nil =>
    intro r
    rw [walkSuccessors]
    exact .done see
  case missing =>
    intro r j ids hnone
    have hfail : f.beyond p r j = .fail (.graph f.name (.missingBlock j)) := by
      simp only [beyond, hnone]
    rw [walkSuccessors, Trace.concat, hfail]
    split
    · exact .fail see _
    · next hsome => cases hnone.symm.trans hsome
  case cons =>
    intro r j ids c hc hbasic hhead hrest
    exact shows_walkSuccessors_cons see hc (fun _ => hbasic) (fun _ => hhead) hrest
  case repeated =>
    intro r b hmem e herror
    rw [walkInto, within, herror]
    exact .fail see e
  case entered =>
    intro r b hmem r' hr' ih
    rw [walkInto, within, hr']
    exact (p.shows_walkInside see r' b [] b.statements).bind (fun _ => rfl) rfl ih

/-- The walk through a function shows the paths of the function. It passes a visitor down its
recursion, while the trace is made without one. -/
theorem shows_walk (f : Function) (p : Program) (see : Visitor m) :
    Shows see (f.walk p see) (f.paths p) := by
  unfold walk paths
  cases f.block? f.entry with
  | none => exact .fail see _
  | some entry =>
      cases hk : entry.kind with
      | precondition condition ranking =>
          simp only [hk]
          split
          · exact .fail see _
          · exact shows_walkFrom see _ entry
      | _ =>
          simp only [hk]
          exact .fail see _

/-- A walk is a visit of the full list of paths: the visitor sees them in order up to the first
one at which it stops or fails. -/
theorem run_walk_iff {see : Visitor m} {w w' : W} {result : Except VerifyError Flow} :
    run (f.walk p see) w = (result, w') ↔
      Trace.Ends see (f.paths p).outcome (f.paths p).toList w result w' := by
  rw [f.shows_walk p see w, Trace.visit_eq, Trace.run_visitList_iff]

/-- The walk with a recorder finds all paths, and ends as the search does. -/
theorem run_walk_recorder (f : Function) (p : Program) :
    run (f.walk p recorder) [] =
      ((f.paths p).outcome.map fun _ => .goOn, (f.paths p).toList) := by
  have hends := run_walk_iff.2 (.finished (Trace.goesOn_recorder [] (f.paths p).toList))
  rw [hends, List.nil_append]

/-- Collecting the paths in a walk gives the list of them, or the defect. -/
theorem collectPaths_eq (f : Function) (p : Program) : f.collectPaths p = (f.paths p).collect := by
  have hrun : (f.walk p recorder).run [] = _ := f.run_walk_recorder p
  rw [collectPaths, hrun, Trace.collect]
  cases (f.paths p).outcome <;> rfl

end Function

end Walk

end Pathwise
