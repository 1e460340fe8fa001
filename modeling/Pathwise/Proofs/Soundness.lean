import Pathwise.Proofs.Conditions

/-!
# Pathwise.Proofs.Soundness

If all conditions of a function are valid, its executions go right.

An execution moves through the graph statement by statement and edge by edge, and calls return
what the contract of the callee allows (`Function.Step`). The invariant of the proof is that each
configuration lies on a walk: what is known at the start of the walk was true in some state, and
the statements of the walk have run from there (`Config.Sound`). At a loop head the walk ends and
a new one begins, since the condition of the path that ends there gives the invariant.

Executions know nothing of paths, and paths nothing of executions. The walks through the graph,
which the exactness of the search is stated with, are what the two have in common: an execution is
cut at loop heads into pieces, each of which follows a walk, and the search has found all paths
that walks end in (`Function.obligation_of_proved`).

`Config.Right` collects what can go wrong at a configuration: an assertion, the precondition of a
callee, an invariant or the postcondition. Nothing is said about termination, nor about arrays
that are read outside of their bounds.

The main theorem is for one function. It takes the contracts of callees as they are, as calls do,
so that each function can be verified by itself. Without the condition on lengths it would be
wrong, and the module ends with two programs that show this.
-/

namespace Pathwise

variable {M : Meaning}

/-! ## Executions

Steps, the configurations that they lead to, and what it means for nothing to be wrong there. A
run that blocks at a false assumption and a run that fails at an assertion both have no further
step; the difference is that before a failure something is wrong. -/

/-- A point of an execution: the block, the statements of it that are left, and the state. -/
structure Config (M : Meaning) where
  block : Block
  rest : List Statement
  state : State M

/-- A step of an execution: a statement runs, or an edge is followed when no statement is left.
Calls are made by contract, in one step. -/
inductive Function.Step (M : Meaning) (p : Program) (f : Function) :
    Config M → Config M → Prop where
  | statement {b : Block} {a : Statement} {rest : List Statement} {s s' : State M}
      (ha : a.action.Effect M p s (some s')) : Step M p f ⟨b, a :: rest, s⟩ ⟨b, rest, s'⟩
  | jump {b c : Block} {j : BlockId} {s : State M} (hj : j ∈ b.successors)
      (hc : f.block? j = some c) : Step M p f ⟨b, [], s⟩ ⟨c, c.statements, s⟩

/-- An execution of `f` from a state where the precondition is true comes to a
configuration. -/
inductive Function.Reaches (M : Meaning) (p : Program) (f : Function) : Config M → Prop where
  | entry {b : Block} {pre : Expr} {s : State M} (hb : f.block? f.entry = some b)
      (hpre : f.precondition? = some pre) (hs : pre.Holds M s) :
      Reaches M p f ⟨b, b.statements, s⟩
  | step {k k' : Config M} (hk : Reaches M p f k) (hstep : f.Step M p k k') : Reaches M p f k'

/-- Nothing is wrong at a configuration: what has to be proved about it is true of its state, for
each kind of obligation. -/
structure Config.Right (p : Program) (f : Function) (k : Config M) : Prop where
  /-- An assertion that comes next is true. -/
  assertion : ∀ a rest c, k.rest = a :: rest → a.action = .assert c → c.Holds M k.state
  /-- The precondition of a callee that is called next is true of the arguments. -/
  precondition : ∀ a rest targets id args, k.rest = a :: rest →
    a.action = .call targets id args → ∃ g pre, p.function? id = some g ∧
      g.precondition? = some pre ∧
      ∀ base, pre.Holds M (g.enter base (args.map (Expr.item M k.state)))
  /-- The invariant of a loop head that has just been entered is true. -/
  invariant : ∀ invariant ranking, k.block.kind = .loopHead invariant ranking →
    k.rest = k.block.statements → invariant.Holds M k.state
  /-- At the exit, the postcondition is true. -/
  postcondition : f.block? f.exit = some k.block →
    ∀ post, f.postcondition? = some post → post.Holds M k.state

/-! ## The invariant

A step keeps a configuration on its walk, or it comes to a loop head or to the exit. In either of
these cases the walk is a complete basic path, and its condition is used. -/

/-- The configuration lies on a walk, and the statements of the walk have run from a state
as it is known at the start of the walk. -/
def Config.Grounded (p : Program) (f : Function) (k : Config M) : Prop :=
  ∃ start known segments front s₀, f.Walk start known segments k.block ∧
    k.block.statements = front ++ k.rest ∧ known.Holds M s₀ ∧
    Runs M p (segments.flatMap Segment.statements ++ front) s₀ (some k.state)

/-- The execution has come to the exit, with the postcondition true. -/
def Config.Done (f : Function) (k : Config M) : Prop :=
  f.block? f.exit = some k.block ∧ k.rest = [] ∧
    ∃ post, f.postcondition? = some post ∧ post.Holds M k.state

/-- The invariant of executions. A configuration is on a walk whose start satisfied what is known
there, or it is at the exit. -/
def Config.Sound (p : Program) (f : Function) (k : Config M) : Prop := k.Grounded p f ∨ k.Done f

/-- Where a statement is left to run, the configuration is not at the end, for the exit has no
statements. -/
theorem Config.Sound.grounded {p : Program} {f : Function} {k : Config M} (hk : k.Sound p f)
    {a : Statement} {rest : List Statement} (hrest : k.rest = a :: rest) : k.Grounded p f := by
  refine hk.resolve_right fun hdone => ?_
  rw [hdone.2.1] at hrest
  cases hrest

/-- A statement that is left to run is in the text of the function. -/
theorem Config.Grounded.exists_block {p : Program} {f : Function} {k : Config M}
    (hk : k.Grounded p f) {a : Statement} {rest : List Statement} (hrest : k.rest = a :: rest) :
    ∃ i, f.block? i = some k.block ∧ a ∈ k.block.statements := by
  obtain ⟨start, known, segments, front, s₀, hw, hs, -⟩ := hk
  obtain ⟨i, hi⟩ := hw.exists_block
  exact ⟨i, hi, by simp [hs, hrest]⟩

namespace Function

variable {p : Program} {f : Function}

/-- All conditions of a function are valid. A path without a condition is not excluded here; in a
validated program each of them has one. -/
def Proved (M : Meaning) (p : Program) (f : Function) : Prop :=
  ∀ q ∈ (f.paths p).toList, ∀ vc, p.condition f q = .ok vc → vc.Valid M

/-- The search of the paths of a function ends well, and all of them have valid conditions. -/
def Certified (M : Meaning) (p : Program) (f : Function) : Prop :=
  ∃ paths, (f.paths p).collect = .ok paths ∧
    ∀ q ∈ paths, ∃ vc, p.condition f q = .ok vc ∧ vc.Valid M

/-- A function is certified by the results of a search without defects. -/
theorem Certified.proved (h : f.Certified M p) : (f.paths p).outcome = .ok () ∧ f.Proved M p := by
  obtain ⟨paths, hp, hall⟩ := h
  obtain ⟨hok, rfl⟩ := Trace.collect_eq_ok hp
  refine ⟨hok, fun q hq vc hvc => ?_⟩
  obtain ⟨vc', hvc', hvalid⟩ := hall q hq
  cases hvc.symm.trans hvc'
  exact hvalid

/-- A walk that passes a block runs all its statements. The entry is not among the segments, and
has no statements. -/
theorem Checked.statements_segments (hc : f.Checked p) {i : BlockId} {b : Block}
    (hb : f.block? i = some b) : b.segments.flatMap Segment.statements = b.statements := by
  unfold Block.segments
  split
  · next hk =>
      obtain ⟨e, _, _, _, he, -, -, -, hs⟩ := hc.entry
      rw [hc.eq_entry hb hk, he] at hb
      cases hb
      exact hs.symm
  · simp

section Sound

variable (hv : p.validate = .ok ()) (hh : p.Hygienic) (ho : p.OwnLengths)
  (hf : f ∈ p.functions) (hok : (f.paths p).outcome = .ok ()) (hproved : f.Proved M p)

include hv hh ho hf hok hproved in
/-- At the end of a basic path, its obligation is true. The condition of the path is valid, and
the fold over its statements is their weakest precondition. -/
theorem obligation_of_proved {q : BasicPath} (hq : p.IsBasicPath f q) {s₀ s : State M}
    (hknown : q.known.Holds M s₀) (hruns : Runs M p q.statements s₀ (some s)) :
    q.obligation.Holds M s := by
  obtain ⟨q', hq', rfl⟩ := exists_mem_of_isBasicPath (checked_of_validate hv hf) hok hq
  obtain ⟨vc, hvc, hmeaning⟩ := Program.condition_ok (M := M) hv hh ho hf hq
  obtain ⟨s', hs, hob⟩ := (hmeaning s₀).1 (fun t _ => hproved q' hq' vc hvc t) hknown _ hruns
  cases hs
  exact hob

include hv hh ho hf hok hproved in
/-- A step from a configuration on a walk leads to another one, or to the exit. An edge to an
annotated block ends the walk, and the condition of its path gives the annotation. -/
theorem Step.sound_of_grounded {k k' : Config M} (hstep : f.Step M p k k')
    (hk : k.Grounded p f) : k'.Sound p f := by
  have hc := checked_of_validate hv hf
  obtain ⟨start, known, segments, front, s₀, hw, hs, hknown, hruns⟩ := hk
  cases hstep with
  | @statement b a rest s s' ha =>
      refine Or.inl ⟨start, known, segments, front ++ [a], s₀, hw, by simpa using hs, hknown, ?_⟩
      rw [← List.append_assoc]
      exact hruns.append (.cons ha (.nil _))
  | @jump b c j s hj hb =>
      obtain ⟨hbid, hreach⟩ := hw.reachable hc
      have hpassed : segments.flatMap Segment.statements ++ front =
          (segments ++ b.segments).flatMap Segment.statements := by
        rw [List.flatMap_append, hc.statements_segments hbid]
        simpa using hs.symm
      rw [hpassed] at hruns
      cases hk : c.kind with
      | basic =>
          refine Or.inl ⟨start, known, _, [], s₀, hw.step hj hb hk, rfl, hknown, ?_⟩
          rwa [List.append_nil]
      | loopHead invariant ranking =>
          -- the walk is a basic path with the invariant as its obligation, and a new one begins
          have hinv := obligation_of_proved hv hh ho hf hok hproved (.head hw hj hb hk) hknown hruns
          exact Or.inl ⟨_, _, [], [], s, .head (hreach.tail ⟨_, hbid, hj⟩) hb hk, rfl, hinv, .nil s⟩
      | postcondition post =>
          have hpost :=
            obligation_of_proved hv hh ho hf hok hproved (.exit hw hj hb hk) hknown hruns
          obtain ⟨x, _, hx, -, -, hstat⟩ := hc.exit
          rw [hc.eq_exit hb hk, hx] at hb
          cases hb
          exact Or.inr ⟨hx, hstat, post, postcondition?_eq_some hx hk, hpost⟩
      | precondition pre ranking => exact absurd (hc.eq_entry hb hk) (hc.ne_entry hbid hj)

/-- The exit has no statements and no successors, so no step leads away from it. -/
theorem Step.not_done (hc : f.Checked p) {k k' : Config M} (hstep : f.Step M p k k') :
    ¬ k.Done f := by
  rintro ⟨hexit, hrest, -⟩
  cases hstep with
  | statement _ => cases hrest
  | jump hj _ =>
      obtain ⟨x, _, hx, -, hsucc, -⟩ := hc.exit
      cases hexit.symm.trans hx
      rw [hsucc] at hj
      cases hj

include hv hh ho hf hok hproved in
/-- Every step keeps the invariant. -/
theorem Step.sound {k k' : Config M} (hstep : f.Step M p k k') (hk : k.Sound p f) :
    k'.Sound p f := by
  rcases hk with hk | hdone
  · exact hstep.sound_of_grounded hv hh ho hf hok hproved hk
  · exact absurd hdone (hstep.not_done (checked_of_validate hv hf))

include hv hf in
/-- An execution that starts with the precondition starts with the invariant. -/
theorem sound_entry {b : Block} {pre : Expr} {s : State M} (hb : f.block? f.entry = some b)
    (hpre : f.precondition? = some pre) (hs : pre.Holds M s) :
    Config.Sound p f ⟨b, b.statements, s⟩ := by
  obtain ⟨e, pre', ranking, j, he, hk, -⟩ := (checked_of_validate hv hf).entry
  cases hb.symm.trans he
  cases hpre.symm.trans (precondition?_eq_some he hk)
  exact Or.inl ⟨_, _, [], [], s, .entry he hk, rfl, hs, .nil s⟩

include hv hh ho hf hok hproved in
/-- So it is true of every configuration that an execution comes to. -/
theorem Reaches.sound {k : Config M} (hk : f.Reaches M p k) : k.Sound p f := by
  induction hk with
  | entry hb hpre hs => exact sound_entry hv hf hb hpre hs
  | step _ hstep ih => exact hstep.sound hv hh ho hf hok hproved ih

/-! ## What the invariant gives

Each of the four things that can be wrong is the obligation of a basic path that ends just there,
or what is known at the start of one. -/

include hv hh ho hf hok hproved in
/-- An obligation before the next statement is true. The walk up to this statement is a basic path
that ends inside a block. -/
theorem holds_of_demands {k : Config M} (hk : k.Grounded p f) {a : Statement}
    {rest : List Statement} (hrest : k.rest = a :: rest) {obligation : Expr}
    {kind : ObligationKind} (hd : p.Demands a obligation kind) : obligation.Holds M k.state := by
  obtain ⟨start, known, segments, front, s₀, hw, hs, hknown, hruns⟩ := hk
  rw [hrest] at hs
  refine obligation_of_proved hv hh ho hf hok hproved (.inside hw hs hd) hknown ?_
  rw [BasicPath.statements, List.flatMap_append]
  simpa using hruns

include hv hh ho hf hok hproved in
/-- The precondition of a callee is true at a call, in any state that the callee may be entered in
with these arguments. -/
theorem precondition_of_grounded {k : Config M} (hk : k.Grounded p f) {a : Statement}
    {rest : List Statement} (hrest : k.rest = a :: rest) {targets : List Variable}
    {id : FunctionId} {args : List Expr} (ha : a.action = .call targets id args) :
    ∃ g pre, p.function? id = some g ∧ g.precondition? = some pre ∧
      ∀ base, pre.Holds M (g.enter base (args.map (Expr.item M k.state))) := by
  obtain ⟨i, hi, hai⟩ := hk.exists_block hrest
  obtain ⟨g, hg, hsite⟩ := callSite_of_action hh.kinds hf (checked_of_validate hv hf) hi hai ha
  obtain ⟨pre, hpre⟩ := (checked_of_validate hv hsite.mem).exists_precondition?
  refine ⟨g, pre, hg, hpre, fun base => ?_⟩
  -- there is no path for a precondition that is trivially true
  by_cases ht : pre = .bool true
  · rw [ht]
    exact Expr.holds_true
  · rw [← hsite.holds_precondition hh ho hf hpre k.state base]
    exact holds_of_demands hv hh ho hf hok hproved hk hrest (.precondition ha hg hpre ht)

include hv hh ho hf hok hproved in
/-- On a walk, nothing is wrong: what comes next is the end of a basic path, and a loop head that
has just been entered is the start of one. -/
theorem right_of_grounded {k : Config M} (hk : k.Grounded p f) : k.Right p f where
  assertion a rest c hrest ha :=
    holds_of_demands hv hh ho hf hok hproved hk hrest (.assertion ha)
  precondition a rest targets id args hrest ha :=
    precondition_of_grounded hv hh ho hf hok hproved hk hrest ha
  invariant invariant ranking hkind hrest := by
    obtain ⟨start, known, segments, front, s₀, hw, hs, hknown, hruns⟩ := hk
    rw [hrest] at hs
    have hfront : front = [] := by simpa using hs
    cases hw with
    | entry _ hkind' => cases hkind.symm.trans hkind'
    | step _ _ _ hkind' => cases hkind.symm.trans hkind'
    | head _ _ hkind' =>
        -- the walk begins here, and nothing has run since
        cases hkind.symm.trans hkind'
        rw [hfront] at hruns
        cases hruns
        exact hknown
  postcondition hexit := by
    obtain ⟨start, known, segments, front, s₀, hw, -⟩ := hk
    -- no walk comes to the exit
    obtain ⟨x, _, hx, hkx, -⟩ := (checked_of_validate hv hf).exit
    cases hexit.symm.trans hx
    cases hw with
    | entry _ hkind => cases hkind.symm.trans hkx
    | head _ _ hkind => cases hkind.symm.trans hkx
    | step _ _ _ hkind => cases hkind.symm.trans hkx

theorem right_of_done (hc : f.Checked p) {k : Config M} (hk : k.Done f) : k.Right p f := by
  obtain ⟨hexit, hrest, post, hpost, hholds⟩ := hk
  refine ⟨fun _ _ _ h => ?_, fun _ _ _ _ _ h => ?_, fun invariant ranking hkind _ => ?_,
    fun _ post' hpost' => ?_⟩
  · rw [hrest] at h
    cases h
  · rw [hrest] at h
    cases h
  · obtain ⟨x, _, hx, hkx, -⟩ := hc.exit
    cases hexit.symm.trans hx
    cases hkind.symm.trans hkx
  · cases hpost.symm.trans hpost'
    exact hholds

include hv hh ho hf hok hproved in
theorem right_of_sound {k : Config M} (hk : k.Sound p f) : k.Right p f := by
  rcases hk with hk | hk
  · exact right_of_grounded hv hh ho hf hok hproved hk
  · exact right_of_done (checked_of_validate hv hf) hk

end Sound

end Function

/-! ## Soundness

The theorem, an execution that it applies to, and the programs for which lengths get in the way.
-/

/-- The conditions of the loop are valid with every meaning of numbers, since they are about
integers only. -/
theorem Counting.certified_count : Counting.count.Certified M Counting.program := by
  refine ⟨_, by cbv, ?_⟩
  simp only [List.forall_mem_cons]
  refine ⟨⟨_, by cbv, fun s => ?_⟩, ⟨_, by cbv, fun s => ?_⟩, ⟨_, by cbv, fun s => ?_⟩,
    ⟨_, by cbv, fun s => ?_⟩, List.forall_mem_nil _⟩ <;>
  · obtain ⟨i, hi⟩ := s.exists_int "i"
    obtain ⟨i', hi'⟩ := s.exists_int "i$post1"
    obtain ⟨n, hn⟩ := s.exists_int "n"
    simp only [Expr.Holds, Expr.value, BinOp.meaning, BinOp.isArithmetic, BinOp.isComparison,
      BinOp.connects, BinOp.compares, BinOp.orders, BinOp.onIntegers, hi, hi', hn, Datum.asBool,
      Datum.asInt, Int64.toInt_zero]
    grind

theorem Lengths.certified_copy : Lengths.copy.Certified M Lengths.sharing := by
  refine ⟨_, by cbv, ?_⟩
  simp only [List.forall_mem_cons]
  refine ⟨⟨_, by cbv, fun s => ?_⟩, List.forall_mem_nil _⟩
  exact Expr.holds_implies.2 id

theorem Lengths.certified_caller : Lengths.caller.Certified M Lengths.passing := by
  refine ⟨_, by cbv, ?_⟩
  simp only [List.forall_mem_cons]
  refine ⟨⟨_, by cbv, fun s => ?_⟩, List.forall_mem_nil _⟩
  exact Expr.holds_implies.2 fun _ => Expr.holds_implies.2 id

/-- If the conditions of all paths of a function are valid, then nothing is wrong at any
configuration that an execution of the function comes to. -/
theorem conditions_sound {p : Program} {f : Function} {paths : List BasicPath} {M : Meaning}
    (hv : p.validate = .ok ()) (hh : p.Hygienic) (ho : p.OwnLengths) (hf : f ∈ p.functions)
    (hp : (f.paths p).collect = .ok paths)
    (hvalid : ∀ q ∈ paths, ∀ vc, p.condition f q = .ok vc → vc.Valid M) (k : Config M)
    (hk : f.Reaches M p k) : k.Right p f := by
  obtain ⟨hok, rfl⟩ := Trace.collect_eq_ok hp
  exact Function.right_of_sound hv hh ho hf hok hvalid (hk.sound hv hh ho hf hok hvalid)

open Counting in
/-- An execution that counts to one, up to the exit. -/
theorem conditions_sound_count :
    ∃ (paths : List BasicPath) (k : Config Lengths.meaning), program.validate = .ok () ∧
      program.Hygienic ∧ program.OwnLengths ∧ count ∈ program.functions ∧
      (count.paths program).collect = .ok paths ∧
      (∀ q ∈ paths, ∀ vc, program.condition count q = .ok vc → vc.Valid Lengths.meaning) ∧
      count.Reaches Lengths.meaning program k ∧ count.block? count.exit = some k.block ∧
      k.Right program count := by
  have hv : program.validate = .ok () := by cbv
  have hh : program.Hygienic := by decide +kernel
  have ho : program.OwnLengths := by decide +kernel
  have hf : count ∈ program.functions := by simp [program]
  obtain ⟨paths, hp, -⟩ := certified_count (M := Lengths.meaning)
  have hvalid : ∀ q ∈ paths, ∀ vc, program.condition count q = .ok vc →
      vc.Valid Lengths.meaning := (Trace.collect_eq_ok hp).2 ▸ certified_count.proved.2
  let s : State Lengths.meaning := Lengths.state.set "n" (.int 1)
  have hcall : increment.Allows Lengths.meaning [⟨.int 0, none⟩] [⟨.int 1, none⟩] :=
    ⟨.cons ⟨rfl, rfl, by simp⟩ .nil, _, s, rfl, (Expr.holds_eq (by decide)).2 rfl⟩
  have h : count.Reaches Lengths.meaning program _ := .entry (s := s) rfl rfl rfl
  have h := h.step (.jump (j := 1) (.head _) rfl)
  have h := h.step (.statement (.assign _ _ _))
  have h := h.step (.jump (j := 2) (.head _) rfl)
  -- once around the loop
  have h := h.step (.jump (j := 3) (.head _) rfl)
  have h := h.step (.statement (.assume rfl))
  have h := h.step (.statement (.call [Sample.i] rfl hcall))
  have h := h.step (.statement (.assert rfl))
  have h := h.step (.jump (j := 2) (.head _) rfl)
  have h := h.step (.jump (j := 4) (.tail _ (.head _)) rfl)
  have h := h.step (.statement (.assume rfl))
  have h := h.step (.jump (j := 5) (.head _) rfl)
  exact ⟨paths, _, hv, hh, ho, hf, hp, hvalid, h, rfl,
    conditions_sound hv hh ho hf hp hvalid _ h⟩

/-- All conditions of a function are valid, and yet an execution comes to a configuration
where something is wrong. -/
def Function.Deceives (M : Meaning) (p : Program) (f : Function) : Prop :=
  f.Certified M p ∧ ∃ k : Config M, f.Reaches M p k ∧ ¬ k.Right p f

open Lengths in
/-- Valid conditions are no guarantee where two arrays share a length, or where a length is
a parameter of its own. -/
theorem conditions_unsound_lengths :
    (sharing.validate = .ok () ∧ sharing.Hygienic ∧
      (copy.parameters ++ copy.results).Nodup ∧ copy.Deceives meaning sharing) ∧
    passing.validate = .ok () ∧ passing.Hygienic ∧
      (caller.parameters ++ caller.results).Nodup ∧ caller.Deceives meaning passing := by
  refine ⟨⟨by cbv, by decide +kernel, by decide +kernel, certified_copy, ?_⟩,
    by cbv, by decide +kernel, by decide +kernel, certified_caller, ?_⟩
  · have h : copy.Reaches meaning sharing _ := .entry (s := state) rfl rfl rfl
    have h := h.step (.jump (j := 2) (.head _) rfl)
    have h := h.step (.statement (.assign _ _ _))
    have h := h.step (.statement (.assign _ _ _))
    have h := h.step (.jump (j := 1) (.head _) rfl)
    refine ⟨_, h, fun hr => ?_⟩
    cases hr.postcondition rfl _ rfl
  · have hcall : resize.Allows meaning ([.var c, .int 5].map (Expr.item meaning state)) [] :=
      ⟨.nil, _, state, rfl, rfl⟩
    have h : caller.Reaches meaning passing _ := .entry (s := state) rfl rfl rfl
    have h := h.step (.jump (j := 2) (.head _) rfl)
    have h := h.step (.statement (.call [] rfl hcall))
    have h := h.step (.jump (j := 1) (.head _) rfl)
    refine ⟨_, h, fun hr => ?_⟩
    cases hr.postcondition rfl _ rfl

end Pathwise
