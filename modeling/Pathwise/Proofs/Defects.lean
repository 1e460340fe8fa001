import Pathwise.Proofs.Conditions
import Pathwise.Proofs.Graphs
import Pathwise.Proofs.Routes

/-!
# Pathwise.Proofs.Defects

What can still go wrong in a validated program.

The search and the fold have many ways to fail, but validation rules out all of them except two: a
block without successors that is not the exit, and a closed walk of basic blocks
(`Function.Defective`). In such a function the search does fail, since it gets to every block; in
any other it does not. Folding never fails, not even on the paths that are found before the search
meets a defect.

The two defects are properties of the graph alone. Neither is looked for by validation, and both
are met only when paths are searched for, so a program may pass validation and then fail to be
verified. The result says that there is no third reason.

For the first direction a defect has to be met. Every block can be reached, and the search gets to
every block that can be; at a dead end it fails at once, and on a closed walk of basic blocks it
comes back to a label that the run has visited. For the other direction nothing else may fail
along the search, by induction on what is left for it.
-/

namespace Pathwise

namespace Function

/-- There is a basic block at the position. -/
def BasicAt (f : Function) (i : BlockId) : Prop := ∃ b, f.block? i = some b ∧ b.kind = .basic

/-- A defect in the shape of the graph. -/
inductive Defective (f : Function) : Prop where
  /-- A block other than the exit has no successors. -/
  | deadEnd {i : BlockId} {b : Block} (hb : f.block? i = some b) (hi : i ≠ f.exit)
      (hs : b.successors = [])
  /-- A closed walk passes basic blocks only. -/
  | cycle {l : List BlockId} (hl : f.Closed l) (hb : ∀ i ∈ l, f.BasicAt i)

variable {p : Program} {f : Function} {m : Position}

/-! ## The search gets to every block

Runs and the routes that they follow. What a run has visited leads to where it is through basic
blocks only, which is why a repeated label is a closed walk and the other way round. -/

theorem reachable_of_validate (h : p.validate = .ok ()) (hf : f ∈ p.functions) {i : BlockId}
    {b : Block} (hb : f.block? i = some b) : f.Reachable i :=
  (wellFormed_of_validateFunction (validateFunction_of_validate h hf)).2.reachable hb

section Visits

variable (hc : f.Checked p)

include hc

theorem Visits.block (hm : f.Visits m) : f.block? m.2.id = some m.2 := by
  obtain ⟨segments, hw, -⟩ := walk_of_visits hc hm
  exact (hw.reachable hc).1

/-- The search never passes the exit. -/
theorem Visits.ne_exit (hm : f.Visits m) : m.2.id ≠ f.exit := by
  intro he
  obtain ⟨x, post, hx, hk, -⟩ := hc.exit
  have hb := hm.block hc
  rw [he, hx] at hb
  cases hb
  cases hm with
  | entry _ hk' => cases hk.symm.trans hk'
  | next _ hn =>
      cases hn with
      | basic _ _ hk' => cases hk.symm.trans hk'
      | head _ _ hk' => cases hk.symm.trans hk'

/-- From a basic block that the run has visited, basic blocks lead to where it is. So an edge back
to it closes a cycle. -/
theorem Visits.route_of_visited (hm : f.Visits m) :
    ∀ k ∈ m.1.visited, ∃ l, f.Route k l m.2.id ∧ ∀ i ∈ l, f.BasicAt i := by
  induction hm with
  | entry => exact List.forall_mem_nil _
  | @next m n hm hn ih =>
      have hb := hm.block hc
      cases hn with
      | @basic r b c j hj hcb hk =>
          have hat : f.BasicAt c.id := ⟨c, hc.label hcb ▸ hcb, hk⟩
          have he : f.Edge b.id c.id := ⟨b, hb, hc.label hcb ▸ hj⟩
          intro k hkv
          rcases List.mem_cons.1 hkv with rfl | hkv
          · exact ⟨[c.id], .refl, by simpa using hat⟩
          · obtain ⟨l, hr, hl⟩ := ih k hkv
            exact ⟨c.id :: l, hr.step he, List.forall_mem_cons.2 ⟨hat, hl⟩⟩
      | head => exact List.forall_mem_nil _

omit hc in
/-- The search follows basic blocks, and the run keeps what it has visited. Whether a block comes
twice is not asked here, so the route may go around a cycle. -/
theorem visits_of_route {i j k : BlockId} {l : List BlockId} (hr : f.Route i l j)
    (hl : ∀ a ∈ l, f.BasicAt a) {r : Run} {b : Block} (hb : f.block? i = some b)
    (hv : f.Visits (r, b)) (hk : k ∈ r.visited) :
    ∃ r' c, f.block? j = some c ∧ f.Visits (r', c) ∧ k ∈ r'.visited := by
  induction hr with
  | refl => exact ⟨r, b, hb, hv, hk⟩
  | step _ he ih =>
      obtain ⟨hat, hl⟩ := List.forall_mem_cons.1 hl
      obtain ⟨r', c, hcb, hv', hk'⟩ := ih hl
      obtain ⟨c', hcb', hj⟩ := he
      cases hcb.symm.trans hcb'
      obtain ⟨d, hd, hkind⟩ := hat
      exact ⟨_, d, hd, hv'.next (.basic hj hd hkind), List.mem_cons_of_mem _ hk'⟩

omit hc in
/-- A run has visited the basic block where it is. -/
theorem Visits.mem_visited {r : Run} {b : Block} (hv : f.Visits (r, b)) (hk : b.kind = .basic) :
    b.id ∈ r.visited := by
  cases hv with
  | entry _ hk' => cases hk.symm.trans hk'
  | next _ hn =>
      cases hn with
      | basic => exact List.mem_cons_self
      | head _ _ hk' => cases hk.symm.trans hk'

end Visits

/-! ## Defects are met

A search without defects gets everywhere, and so to the defect. The contradiction is at the block
where the search would have failed. -/

/-- In a defective function the search fails. Validation has made sure that it comes to the
defect. -/
theorem Defective.outcome_ne_ok (hd : f.Defective) (hval : p.validate = .ok ())
    (hf : f ∈ p.functions) : (f.paths p).outcome ≠ .ok () := by
  intro hok
  have hc := checked_of_validate hval hf
  cases hd with
  | deadEnd hb hi hs =>
      rcases visits_of_reachable hc (reachable_of_validate hval hf hb) with he | ⟨r, b, hb', hv⟩
      · exact hi he
      · cases hb.symm.trans hb'
        exact (outcome_fanOut_ok.1 (hv.outcome hok).1).1 hs
  | cycle hl hat =>
      obtain ⟨i, j, hr, he⟩ := hl
      obtain ⟨b, hb, hk⟩ := hat i hr.source_mem
      have hne : i ≠ f.exit := by
        rintro rfl
        obtain ⟨x, post, hx, hkx, -⟩ := hc.exit
        cases hb.symm.trans hx
        cases hk.symm.trans hkx
      obtain ⟨r, b', hb', hv⟩ :=
        (visits_of_reachable hc (reachable_of_validate hval hf hb)).resolve_left hne
      cases hb.symm.trans hb'
      -- around the cycle the search comes back to where it started
      have hi : i ∈ r.visited := hc.label hb ▸ hv.mem_visited hk
      obtain ⟨r', c, hcb, hv', hi'⟩ := visits_of_route hr hat hb hv hi
      obtain ⟨c', hcb', hj⟩ := he
      cases hcb.symm.trans hcb'
      obtain ⟨-, -, hbeyond⟩ := outcome_fanOut_ok.1 (hv'.outcome hok).1
      exact ((outcome_beyond_basic hb hk).1 (hbeyond i hj)).1 (hc.label hb ▸ hi')

/-! ## Nothing else goes wrong

Obligations can be computed and edges lead to blocks that may be entered, by what validation has
checked. -/

section Clean

variable (hval : p.validate = .ok ()) (hk : p.ArrayKinds) (hf : f ∈ p.functions)

include hval hk hf in
/-- Statements of the text have obligations that can be computed. -/
theorem obligation?_ok {i : BlockId} {b : Block} (hb : f.block? i = some b) :
    ∀ a ∈ b.statements, ∃ o, p.obligation? a = .ok o := by
  intro a ha
  unfold Program.obligation?
  cases hs : a.action with
  | call targets id args =>
      obtain ⟨g, hg, hsite⟩ := callSite_of_action hk hf (checked_of_validate hval hf) hb ha hs
      obtain ⟨pre, hpre⟩ := (checked_of_validate hval hsite.mem).exists_precondition?
      obtain ⟨σ, hσ, -⟩ := hsite.bind_ok
      simp only [hg, hpre, hσ, getOr, Bind.bind, Except.bind]
      split <;> exact ⟨_, rfl⟩
  | _ => exact ⟨_, rfl⟩

theorem arrival_ok (hc : f.Checked p) {i : BlockId} {r : Run} {b : Block}
    (hb : f.block? i = some b) : ∀ j ∈ b.successors, ∃ o, f.arrival r b j = .ok o := by
  intro j hj
  obtain ⟨c, hcb, -⟩ := hc.target hb hj
  unfold arrival
  simp only [hcb, getOr, Bind.bind, Except.bind]
  cases hkind : c.kind with
  | precondition condition ranking => exact absurd (hc.eq_entry hcb hkind) (hc.ne_entry hb hj)
  | _ => exact ⟨_, rfl⟩

include hval hk hf in
/-- The search from any position meets no defect unless the function has one. The recursion is
that of the search, with the same measure. -/
theorem Visits.outcome_ok (hd : ¬ f.Defective) {r : Run} {b : Block} (hm : f.Visits (r, b)) :
    (f.fanOut p r b).outcome = .ok () := by
  have hc := checked_of_validate hval hf
  have hb : f.block? b.id = some b := hm.block hc
  refine outcome_fanOut_ok.2 ⟨fun hs => hd (.deadEnd hb (hm.ne_exit hc) hs), arrival_ok hc hb, ?_⟩
  intro j hj
  obtain ⟨c, hcb, -⟩ := hc.target hb hj
  cases hkind : c.kind with
  | basic =>
      have hv : c.id ∉ r.visited := by
        intro hv
        obtain ⟨l, hr, hl⟩ := hm.route_of_visited hc c.id hv
        exact hd (.cycle ⟨c.id, b.id, hr, b, hb, hc.label hcb ▸ hj⟩ hl)
      exact (outcome_beyond_basic hcb hkind).2 ⟨hv,
        Program.outcome_inside_ok.2 (obligation?_ok hval hk hf hcb),
        Visits.outcome_ok hd (hm.next (.basic hj hcb hkind))⟩
  | loopHead invariant ranking =>
      by_cases ho : j ∈ r.opened
      · rw [beyond_head hcb hkind, if_pos ho]
        rfl
      · exact (outcome_beyond_head hcb hkind ho).2 ⟨
          Program.outcome_inside_ok.2 (obligation?_ok hval hk hf hcb),
          Visits.outcome_ok hd (hm.next (.head hj hcb hkind ho))⟩
  | _ => simp [beyond, hcb, hkind, Trace.outcome]
termination_by f.left (r, b)
decreasing_by
  · exact left_extend hcb hv
  · exact left_atHead hcb ho

include hval hk hf in
/-- A function without defects is searched to the end. -/
theorem outcome_paths_ok (hd : ¬ f.Defective) : (f.paths p).outcome = .ok () := by
  obtain ⟨e, condition, ranking, j, he, hkind, -, hs, -⟩ := (checked_of_validate hval hf).entry
  have heq : f.paths p = f.fanOut p (.atEntry condition) e := by
    unfold paths
    simp [he, hkind, hs]
  rw [heq]
  exact Visits.outcome_ok hval hk hf hd (.entry he hkind)

end Clean

end Function

/-! ## Folding

Each statement of the text can be folded over any formula. Unlike the meaning of the result, this
needs no hygiene beyond the kinds of variables. -/

namespace Program

variable {p : Program} {f : Function} (hval : p.validate = .ok ()) (hk : p.ArrayKinds)
  (hf : f ∈ p.functions)

include hval hk hf

theorem exists_foldStatement {a : Statement} (ha : f.Contains a) (r : Running) :
    ∃ r', p.foldStatement f a r = .ok r' := by
  obtain ⟨i, b, hb, ha⟩ := ha
  have hc := Function.checked_of_validate hval hf
  cases hs : a.action with
  | assign v e => exact ⟨_, foldStatement_assign hs (fits_of_assign hf hc hb ha hk hs) r⟩
  | store v k e =>
      obtain ⟨l, -, hfold⟩ := foldStatement_store hc hb ha hs r
      exact ⟨_, hfold⟩
  | call targets id args =>
      obtain ⟨g, hg, hsite⟩ := Function.callSite_of_action hk hf hc hb ha hs
      obtain ⟨post, hpost⟩ := (Function.checked_of_validate hval hsite.mem).exists_postcondition?
      have hfold := hsite.foldCall_ok hf hk hg hpost r
      exact ⟨_, by rw [foldStatement, hs]; exact hfold⟩
  | assert c => exact ⟨_, by rw [foldStatement, hs]⟩
  | assume c => exact ⟨_, by rw [foldStatement, hs]⟩

theorem exists_foldStatements {statements : List Statement}
    (hs : ∀ a ∈ statements, f.Contains a) (r : Running) :
    ∃ r', p.foldStatements f statements r = .ok r' := by
  induction statements with
  | nil => exact ⟨r, rfl⟩
  | cons a rest ih =>
      obtain ⟨ha, hrest⟩ := List.forall_mem_cons.1 hs
      obtain ⟨r₁, hr₁⟩ := ih hrest
      obtain ⟨r₂, hr₂⟩ := exists_foldStatement hval hk hf ha r₁
      exact ⟨r₂, bind_eq_ok_iff.2 ⟨r₁, hr₁, hr₂⟩⟩

/-- Every path that the search finds has a condition, also where the search fails later. -/
theorem exists_condition {q : BasicPath} (hq : q ∈ (f.paths p).toList) :
    ∃ vc, p.condition f q = .ok vc := by
  obtain ⟨m, hm, hfinds⟩ := Function.exists_finds hq
  have hbasic := Function.isBasicPath_of_finds (Function.checked_of_validate hval hf) hm hfinds
  obtain ⟨r, hr⟩ := exists_foldStatements hval hk hf hbasic.contains ⟨q.obligation, 0⟩
  exact ⟨_, bind_eq_ok_iff.2 ⟨r, hr, rfl⟩⟩

end Program

/-! ## The two defects

The characterization, and a function that gets stuck after a path has been found. -/

/-- In a function of a validated program, the search for paths fails exactly if a block other
than the exit has no successors or some closed walk passes basic blocks only; and every path
that is found, before a defect as well, has a condition. -/
theorem conditions_fail_by_shape_only {p : Program} {f : Function} (hv : p.validate = .ok ())
    (hk : p.ArrayKinds) (hf : f ∈ p.functions) :
    ((∃ e, (f.paths p).collect = .error e) ↔
      (∃ i b, f.block? i = some b ∧ i ≠ f.exit ∧ b.successors = []) ∨
        ∃ l, f.Closed l ∧ ∀ i ∈ l, ∃ b, f.block? i = some b ∧ b.kind = .basic) ∧
      ∀ q ∈ (f.paths p).toList, ∃ vc, p.condition f q = .ok vc := by
  refine ⟨?_, fun q hq => Program.exists_condition hv hk hf hq⟩
  constructor
  · rintro ⟨e, he⟩
    have hd : f.Defective := by
      by_contra hd
      rw [Trace.collect, Function.outcome_paths_ok hv hk hf hd] at he
      cases he
    cases hd with
    | deadEnd hb hi hs => exact Or.inl ⟨_, _, hb, hi, hs⟩
    | cycle hl hb => exact Or.inr ⟨_, hl, hb⟩
  · intro h
    have hd : f.Defective := by
      rcases h with ⟨i, b, hb, hi, hs⟩ | ⟨l, hl, hb⟩
      · exact .deadEnd hb hi hs
      · exact .cycle hl hb
    cases ho : (f.paths p).outcome with
    | ok => exact absurd ho (hd.outcome_ne_ok hv hf)
    | error e => exact ⟨e, by rw [Trace.collect, ho]; rfl⟩

namespace Stuck

/-- A function that may return or get stuck in a block without successors. -/
def stuck : Function := ⟨"stuck", 0, [], [], 0, 1, [
  ⟨0, .precondition (.bool true) [], [], [2], []⟩,
  ⟨1, .postcondition (.bool true), [2], [], []⟩,
  ⟨2, .basic, [0], [1, 3], []⟩,
  ⟨3, .basic, [2], [], []⟩]⟩

def program : Program := { types := .ofList [⟨[], []⟩], functions := [stuck] }

end Stuck

/-- The search finds the way to the exit, and its condition, before it gets stuck. -/
theorem conditions_fail_by_shape_only_stuck :
    Stuck.program.validate = .ok () ∧ Stuck.program.ArrayKinds ∧
      Stuck.stuck ∈ Stuck.program.functions ∧
      (∃ e, (Stuck.stuck.paths Stuck.program).collect = .error e) ∧
      ∃ q ∈ (Stuck.stuck.paths Stuck.program).toList,
        ∃ vc, Stuck.program.condition Stuck.stuck q = .ok vc := by
  have hv : Stuck.program.validate = .ok () := by cbv
  have hk : Stuck.program.ArrayKinds := by decide +kernel
  have hf : Stuck.stuck ∈ Stuck.program.functions := by simp [Stuck.program]
  obtain ⟨paths, hp, q, hq⟩ : ∃ paths, (Stuck.stuck.paths Stuck.program).toList = paths ∧
      ∃ q, q ∈ paths :=
    ⟨_, by cbv, _, .head _⟩
  subst hp
  obtain ⟨hfail, hconditions⟩ := conditions_fail_by_shape_only hv hk hf
  exact ⟨hv, hk, hf, hfail.2 (Or.inl ⟨3, _, rfl, by decide, rfl⟩), q, hq, hconditions q hq⟩

end Pathwise
