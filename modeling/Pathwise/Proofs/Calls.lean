import Pathwise.Proofs.Verdict

/-!
# Pathwise.Proofs.Calls

Executions in which callees run their own bodies.

A stack holds the functions that are being executed, each at a configuration of its own
(`Program.Moves`). A caller stays at the call until the callee is at its exit; then the results
are copied to the targets.

The conditions of the caller rest on the contract of the callee, in which parameters stand for the
arguments. The conditions of the callee are about its exit, where parameters stand for their
values there. So the two agree if the callee keeps the parameters that its postcondition mentions
(`Program.KeepsParameters`), and need not agree otherwise.

The proof adds to the soundness of conditions what is known of a stack (`Program.Stands`): each
frame is at a sound configuration of its function, and each callee has left alone what it does not
assign since it was entered. With this a return is a step of the caller in which the contract
gives the results, so that the step lemma for executions without calls applies to it. Recursion
needs no argument of its own: the contracts are assumed for all functions at once, and nothing is
claimed about executions that do not end.

The main theorem starts from a verdict. A program whose callee overwrites a parameter shows that
the condition on parameters cannot be left out.
-/

namespace Pathwise

variable {M : Meaning}

/-! ## Stacks

Frames, the moves of an execution with calls, and what it means for nothing to be wrong at a
stack: nothing is wrong in any frame, and a callee that is about to return keeps its promise to
the caller that waits for it. -/

/-- A function that is being executed. -/
structure Frame (M : Meaning) where
  function : Function
  config : Config M

/-- The values of the results of a function. -/
noncomputable def Function.resultsAt (g : Function) (t : State M) : List (Item M) :=
  g.results.map fun r => (Expr.var r).item M t

/-- A step of an execution with calls. The stack has the running function on top. -/
inductive Program.Moves (M : Meaning) (p : Program) : List (Frame M) → List (Frame M) → Prop where
  /-- The running function makes a step that is no call. -/
  | step {f : Function} {k k' : Config M} {stack : List (Frame M)} (hk : f.Step M p k k')
      (hn : ∀ a rest targets id args, k.rest = a :: rest → a.action ≠ .call targets id args) :
      Moves M p (⟨f, k⟩ :: stack) (⟨f, k'⟩ :: stack)
  /-- The running function calls another one, which starts with the arguments as its
  parameters and any values in its other variables. -/
  | call {f g : Function} {b e : Block} {a : Statement} {rest : List Statement} {s : State M}
      {targets : List Variable} {id : FunctionId} {args : List Expr} {stack : List (Frame M)}
      (ha : a.action = .call targets id args) (hg : p.function? id = some g)
      (he : g.block? g.entry = some e) (base : State M) :
      Moves M p (⟨f, b, a :: rest, s⟩ :: stack)
        (⟨g, e, e.statements, g.enter base (args.map (Expr.item M s))⟩ ::
          ⟨f, b, a :: rest, s⟩ :: stack)
  /-- The running function is at its exit and returns to its caller. -/
  | back {f g : Function} {b x : Block} {a : Statement} {rest : List Statement}
      {s t : State M} {targets : List Variable} {id : FunctionId} {args : List Expr}
      {stack : List (Frame M)} (hx : g.block? g.exit = some x)
      (ha : a.action = .call targets id args) :
      Moves M p (⟨g, x, [], t⟩ :: ⟨f, b, a :: rest, s⟩ :: stack)
        (⟨f, b, rest, s.assignAll (targets.zip (g.resultsAt t))⟩ :: stack)

namespace Program.Moves

variable {p : Program} {f : Function} {b : Block} {s : State M} {stack : List (Frame M)}

theorem jump {c : Block} {j : BlockId} (hj : j ∈ b.successors) (hc : f.block? j = some c) :
    p.Moves M (⟨f, b, [], s⟩ :: stack) (⟨f, c, c.statements, s⟩ :: stack) := by
  refine .step (.jump hj hc) fun a rest targets id args hrest => ?_
  cases hrest

theorem statement {a : Statement} {rest : List Statement} {s' : State M}
    (ha : a.action.Effect M p s (some s'))
    (hn : ∀ targets id args, a.action ≠ .call targets id args) :
    p.Moves M (⟨f, b, a :: rest, s⟩ :: stack) (⟨f, b, rest, s'⟩ :: stack) := by
  refine .step (.statement ha) fun a rest targets id args hrest => ?_
  cases hrest
  exact hn targets id args

end Program.Moves

/-- An execution of `f` with calls, from a state where the precondition is true, comes to a
stack. -/
inductive Program.Arrives (M : Meaning) (p : Program) (f : Function) : List (Frame M) → Prop where
  | entry {e : Block} {pre : Expr} {s : State M} (he : f.block? f.entry = some e)
      (hpre : f.precondition? = some pre) (hs : pre.Holds M s) :
      Arrives M p f [⟨f, e, e.statements, s⟩]
  | move {stack stack' : List (Frame M)} (hs : Arrives M p f stack) (hm : p.Moves M stack stack') :
      Arrives M p f stack'

/-- Nothing is wrong at a stack. -/
structure Program.StackRight (M : Meaning) (p : Program) (stack : List (Frame M)) : Prop where
  /-- Nothing is wrong in any of the functions that are being executed. -/
  frames : ∀ r ∈ stack, r.config.Right p r.function
  /-- When a callee is about to return, its postcondition is true of its results and of the
  arguments at the call. -/
  returns : ∀ f g b x a rest s t targets id args below,
    stack = ⟨g, x, [], t⟩ :: ⟨f, b, a :: rest, s⟩ :: below → g.block? g.exit = some x →
    a.action = .call targets id args → ∃ post, g.postcondition? = some post ∧
      ∀ base, post.Holds M (g.leave base (args.map (Expr.item M s)) (g.resultsAt t))

/-! ## Cells that a function keeps

A function changes its targets and nothing else. That includes the targets of calls, whose results
are copied there. -/

/-- The states differ only in what the function assigns. -/
def Function.Keeps (g : Function) (s t : State M) : Prop :=
  ∀ x ty, (∀ v ∈ g.targets, ∀ w ∈ v.withLength, x ≠ w.name) → t.read x ty = s.read x ty

/-- No function assigns a parameter that its postcondition mentions, unless the parameter is
a result too. -/
def Program.KeepsParameters (p : Program) : Prop :=
  ∀ f ∈ p.functions, ∀ post ∈ f.postcondition?, ∀ v ∈ post.reads [], ∀ w ∈ v.withLength,
    w.name ∈ f.resultNames ∨ ∀ u ∈ f.targets, ∀ u' ∈ u.withLength, w.name ≠ u'.name

instance (p : Program) : Decidable p.KeepsParameters :=
  inferInstanceAs (Decidable (∀ f ∈ p.functions, ∀ post ∈ f.postcondition?, _))

namespace Function

variable {p : Program} {g : Function} {s t u : State M}

theorem Keeps.refl (g : Function) (s : State M) : g.Keeps s s := fun _ _ _ => rfl

theorem Keeps.trans (h : g.Keeps s t) (h' : g.Keeps t u) : g.Keeps s u := fun x ty hx =>
  (h' x ty hx).trans (h x ty hx)

/-- Assignments to targets keep everything else. -/
theorem keeps_assignAll {items : List (Variable × Item M)} (h : ∀ q ∈ items, q.1 ∈ g.targets)
    (s : State M) : g.Keeps s (s.assignAll items) := fun _ ty hx =>
  State.read_assignAll_of_ne (fun q hq => hx q.1 (h q hq)) s ty

/-- A statement changes nothing but its targets. What a call does to the variables of the callee
is out of sight. -/
theorem keeps_of_effect {a : Action} (ha : ∀ v ∈ a.targets, v ∈ g.targets)
    (he : a.Effect M p s (some t)) : g.Keeps s t := by
  cases he with
  | assign v e =>
      intro x ty hx
      exact State.read_assign_of_ne (hx v (ha v (by simp [Action.targets]))) s _ ty
  | store v i e =>
      intro x ty hx
      exact State.read_set_of_ne _ _ _
        (hx v (ha v (by simp [Action.targets])) v v.self_mem_withLength)
  | call targets hf hallows => exact keeps_assignAll (fun q hq => ha _ (List.of_mem_zip hq).1) s
  | assert => exact .refl g s
  | assume => exact .refl g s

end Function

/-! ## Contracts at the exit

At the exit the postcondition is true in the state of the callee. The caller reads it in a state
with the arguments as they were and with the results; the two agree on all cells that the
postcondition reads. -/

namespace State

variable {s t : State M} {v w : Variable}

/-- Assigning a variable what it holds in `t` makes its cells as in `t`, and leaves cells
that are as in `t` so. -/
theorem read_assign_own
    (h : w ∈ v.withLength ∨ s.read w.name w.ty = t.read w.name w.ty) :
    (s.assign v ((Expr.var v).item M t)).read w.name w.ty = t.read w.name w.ty := by
  unfold assign Expr.item
  rw [Expr.value, Expr.lengthValue?]
  cases hl : v.length? with
  | none =>
      have hw : w = v ∨ s.read w.name w.ty = t.read w.name w.ty :=
        h.imp_left fun hw => (Variable.mem_withLength.1 hw).resolve_right (by simp [hl])
      simp only [read_set, t.typed]
      split
      · next hc => rw [hc.1, hc.2]
      · next hc => exact hw.resolve_left fun he => hc ⟨by rw [he], by rw [he]⟩
  | some l =>
      simp only [Option.map_some, read_set, t.typed]
      split
      · next hc => rw [hc.1, hc.2]
      · next hcl =>
          split
          · next hc => rw [hc.1, hc.2]
          · next hcv =>
              -- neither cell was set, so it is neither the variable nor its length
              refine h.resolve_left fun hw => ?_
              rcases Variable.mem_withLength.1 hw with rfl | hw
              · exact hcv ⟨rfl, rfl⟩
              · cases hl.symm.trans hw
                exact hcl ⟨rfl, rfl⟩

theorem read_assignAll_own {vs : List Variable}
    (h : (∃ v ∈ vs, w ∈ v.withLength) ∨ s.read w.name w.ty = t.read w.name w.ty) :
    (s.assignAll (vs.zip (vs.map fun v => (Expr.var v).item M t))).read w.name w.ty =
      t.read w.name w.ty := by
  induction vs generalizing s with
  | nil => exact h.resolve_left (by simp)
  | cons v vs ih =>
      refine ih ?_
      rcases h with ⟨u, hu, hw⟩ | h
      · rcases List.mem_cons.1 hu with rfl | hu
        · exact Or.inr (read_assign_own (Or.inl hw))
        · exact Or.inl ⟨u, hu, hw⟩
      · exact Or.inr (read_assign_own (Or.inr h))

end State

namespace Function

variable {p : Program} {g : Function} {post : Expr}

/-- The results of a function are of the types that it says. They are read from its own variables,
which hold nothing else. -/
theorem suits_resultsAt (g : Function) (t : State M) :
    List.Forall₂ Item.Suits (g.resultsAt t) g.results := by
  unfold resultsAt
  rw [List.forall₂_map_left_iff, List.forall₂_same]
  intro r _
  have hfits : r.Fits (.var r) := {
    ty := rfl
    length := by rw [Expr.arrayLength?, Option.isSome_map]
    lengthTy := fun n hn => by
      obtain ⟨l, hl, rfl⟩ := Option.map_eq_some_iff.1 hn
      exact Variable.ty_of_length? hl }
  exact hfits.suits t

section Contract

variable (hh : p.Hygienic) (hg : g ∈ p.functions) (hpost : g.postcondition? = some post)

include hh hg hpost in
/-- A postcondition that is true at the exit is true of the arguments at the call, if the
function keeps its parameters. -/
theorem holds_leave_of_keeps (hk : p.KeepsParameters) {base t : State M} {args : List (Item M)}
    (hkeeps : g.Keeps (g.enter base args) t) (hholds : post.Holds M t) :
    post.Holds M (g.leave base args (g.resultsAt t)) := by
  refine (Expr.holds_congr fun v hv w hw => ?_).2 hholds
  have htext := stateVariables_of_reads (mem_exprs_of_postcondition? hpost) hv hw
  refine State.read_assignAll_own ?_
  -- the cell belongs to a result, or it is as it was on entry
  by_cases hr : w.name ∈ g.resultNames
  · obtain ⟨u, hu, hn⟩ := List.mem_map.1 hr
    obtain ⟨r, hr, hur⟩ := List.mem_flatMap.1 hu
    have hu' := stateVariables_of_mem (List.mem_append_left _ (List.mem_append_right _ hr)) hur
    have huw := hh.unique g hg u (mem_mentions hu') w (mem_mentions htext) hn
    exact Or.inl ⟨r, hr, huw ▸ hur⟩
  · exact Or.inr (hkeeps _ _ ((hk g hg post hpost v hv w hw).resolve_left hr)).symm

/-- The arguments at a call are of the types that the callee expects. -/
theorem CallSite.suits_args {f : Function} {targets : List Variable} {args : List Expr}
    (hsite : f.CallSite p g targets args) (s : State M) :
    List.Forall₂ Item.Suits (args.map (Expr.item M s)) g.parameters := by
  rw [List.forall₂_map_left_iff]
  refine (List.forall₂_iff_zip.2 ⟨hsite.args_length, fun hq => ?_⟩).flip
  exact (hsite.args_fit _ hq).suits s

include hh hg hpost in
/-- What else a state holds does not matter to the postcondition. It reads parameters and results,
and these are set. -/
theorem holds_leave_congr {args results : List (Item M)}
    (hargs : List.Forall₂ Item.Suits args g.parameters)
    (hresults : List.Forall₂ Item.Suits results g.results) (base base' : State M) :
    post.Holds M (g.leave base args results) ↔ post.Holds M (g.leave base' args results) := by
  have hcover : ∀ v ∈ post.reads [], ∃ q ∈ g.parameters.zip args ++ g.results.zip results,
      ∃ w ∈ q.1.withLength, w.name = v.name := by
    intro v hv
    rcases List.mem_append.1 (hh.postconditions g hg post hpost v hv) with hv | hv
    · obtain ⟨q, hq, h⟩ := exists_zip_of_name (Nat.le_of_eq hargs.length_eq.symm) hv
      exact ⟨q, List.mem_append_left _ hq, h⟩
    · obtain ⟨q, hq, h⟩ := exists_zip_of_name (Nat.le_of_eq hresults.length_eq.symm) hv
      exact ⟨q, List.mem_append_right _ hq, h⟩
  unfold leave enter
  rw [← State.assignAll_append, ← State.assignAll_append]
  refine Expr.holds_congr fun v hv w hw => ?_
  obtain ⟨q, hq, u, hu, hn⟩ := hcover v hv
  refine State.read_assignAll_congr (fun q hq => ?_) (Or.inr ⟨q, hq, ?_⟩)
  · rcases List.mem_append.1 hq with hq | hq
    · exact Item.suits_of_mem_zip hargs q hq
    · exact Item.suits_of_mem_zip hresults q hq
  · have hmem : q.1 ∈ g.parameters ++ g.results := by
      rcases List.mem_append.1 hq with hq | hq
      · exact List.mem_append_left _ (List.of_mem_zip hq).1
      · exact List.mem_append_right _ (List.of_mem_zip hq).1
    have huv := hh.unique g hg u (mem_mentions (stateVariables_of_mem
      (List.mem_append_left _ hmem) hu)) v (mem_mentions (stateVariables_of_reads
        (mem_exprs_of_postcondition? hpost) hv v.self_mem_withLength)) hn
    exact Variable.withLength_subset hu (huv ▸ hw)

end Contract

end Function

/-! ## The invariant

What is known of a stack, step by step. Only the top frame moves, and frames below it wait at a
call. -/

/-- The frames of the stack are sound, and each callee has kept what it does not assign since
it was entered. -/
inductive Program.Stands (M : Meaning) (p : Program) : List (Frame M) → Prop where
  | bottom {f : Function} {k : Config M} (hf : f ∈ p.functions) (hk : k.Sound p f) :
      Stands M p [⟨f, k⟩]
  | callee {f g : Function} {k : Config M} {b : Block} {a : Statement} {rest : List Statement}
      {s : State M} {targets : List Variable} {id : FunctionId} {args : List Expr}
      {stack : List (Frame M)} (hs : Stands M p (⟨f, b, a :: rest, s⟩ :: stack))
      (ha : a.action = .call targets id args) (hg : p.function? id = some g) (hk : k.Sound p g)
      (base : State M) (hkeeps : g.Keeps (g.enter base (args.map (Expr.item M s))) k.state) :
      Stands M p (⟨g, k⟩ :: ⟨f, b, a :: rest, s⟩ :: stack)

namespace Program.Stands

variable {p : Program} {stack : List (Frame M)} {f : Function} {k : Config M}

/-- Each frame of a stack is at a sound configuration of a function of the program. -/
theorem sound (hs : p.Stands M stack) {r : Frame M} (hr : r ∈ stack) :
    r.function ∈ p.functions ∧ r.config.Sound p r.function := by
  induction hs with
  | bottom hf hk =>
      cases List.mem_singleton.1 hr
      exact ⟨hf, hk⟩
  | callee _ _ hg hk _ _ ih =>
      rcases List.mem_cons.1 hr with rfl | hr
      · exact ⟨List.mem_of_getElem? hg, hk⟩
      · exact ih hr

theorem top (hs : p.Stands M (⟨f, k⟩ :: stack)) : f ∈ p.functions ∧ k.Sound p f :=
  hs.sound List.mem_cons_self

/-- The running function may go on to any sound configuration, if it assigns only its
targets. -/
theorem replace (hs : p.Stands M (⟨f, k⟩ :: stack)) {k' : Config M} (hk : k'.Sound p f)
    (hkeeps : f.Keeps k.state k'.state) : p.Stands M (⟨f, k'⟩ :: stack) := by
  cases hs with
  | bottom hf _ => exact .bottom hf hk
  | callee hs ha hg _ base h => exact .callee hs ha hg hk base (h.trans hkeeps)

end Program.Stands

/-- A step of a function assigns only its targets. -/
theorem Function.Step.keeps {p : Program} {f : Function} {k k' : Config M}
    (hstep : f.Step M p k k') (hk : k.Sound p f) : f.Keeps k.state k'.state := by
  cases hstep with
  | jump => exact .refl f _
  | statement ha =>
      obtain ⟨i, hi, hmem⟩ := (hk.grounded rfl).exists_block rfl
      exact Function.keeps_of_effect (fun v hv => Function.mem_targets_of_action hi hmem hv) ha

section Stands

variable {p : Program} (hv : p.validate = .ok ()) (hh : p.Hygienic) (ho : p.OwnLengths)
  (hk : p.KeepsParameters)
  (hproved : ∀ f ∈ p.functions, (f.paths p).outcome = .ok () ∧ f.Proved M p)

include hv hh ho hproved in
/-- A step of the running function, with calls by contract, keeps the invariant. This is the step
lemma for executions without calls, applied to the top of the stack. -/
theorem Program.Stands.step {f : Function} {k k' : Config M} {stack : List (Frame M)}
    (hs : p.Stands M (⟨f, k⟩ :: stack)) (hstep : f.Step M p k k') :
    p.Stands M (⟨f, k'⟩ :: stack) := by
  obtain ⟨hf, hsound⟩ := hs.top
  obtain ⟨hok, hprf⟩ := hproved f hf
  exact hs.replace (hstep.sound hv hh ho hf hok hprf hsound) (hstep.keeps hsound)

include hv hh ho hk hproved in
/-- When a callee is at its exit, its contract allows its results. The postcondition is true
there, and the parameters that it reads have kept their values. -/
theorem Program.allows_of_exit {f g : Function} {b x : Block} {a : Statement}
    {rest : List Statement} {s t : State M} {targets : List Variable} {id : FunctionId}
    {args : List Expr} {stack : List (Frame M)}
    (hs : p.Stands M (⟨g, x, [], t⟩ :: ⟨f, b, a :: rest, s⟩ :: stack))
    (hx : g.block? g.exit = some x) (ha : a.action = .call targets id args) :
    p.Stands M (⟨f, b, a :: rest, s⟩ :: stack) ∧ p.function? id = some g ∧
      g.Allows M (args.map (Expr.item M s)) (g.resultsAt t) := by
  cases hs with
  | callee hs ha' hg hsound base hkeeps =>
      cases ha.symm.trans ha'
      have hmem := List.mem_of_getElem? hg
      obtain ⟨post, hpost⟩ := (Function.checked_of_validate hv hmem).exists_postcondition?
      obtain ⟨hok, hprf⟩ := hproved g hmem
      have hright := Function.right_of_sound hv hh ho hmem hok hprf hsound
      have hholds := hright.postcondition hx post hpost
      exact ⟨hs, hg, g.suits_resultsAt t, post, base, hpost,
        Function.holds_leave_of_keeps hh hmem hpost hk hkeeps hholds⟩

include hv hh ho hk hproved in
/-- A step of an execution with calls keeps the invariant. A call pushes a sound frame because the
precondition is true, and a return is a step of the caller. -/
theorem Program.Moves.stands {stack stack' : List (Frame M)} (hm : p.Moves M stack stack')
    (hs : p.Stands M stack) : p.Stands M stack' := by
  cases hm with
  | step hstep _ => exact hs.step hv hh ho hproved hstep
  | call ha hg he base =>
      obtain ⟨hf, hsound⟩ := hs.top
      obtain ⟨hok, hprf⟩ := hproved _ hf
      obtain ⟨g, pre, hg', hpre, hholds⟩ := Function.precondition_of_grounded hv hh ho hf hok hprf
        (hsound.grounded rfl) rfl ha
      cases hg.symm.trans hg'
      have hentry := Function.sound_entry hv (List.mem_of_getElem? hg) he hpre (hholds base)
      exact .callee hs ha hg hentry base (.refl _ _)
  | @back f g b x a rest s t targets id args stack hx ha =>
      -- the return is a step of the caller in which the contract gives the results
      obtain ⟨hs, hg, hallows⟩ := allows_of_exit hv hh ho hk hproved hs hx ha
      have heffect : a.action.Effect M p s _ := ha ▸ Action.Effect.call targets hg hallows
      exact hs.step hv hh ho hproved (.statement heffect)

include hv hh ho hk hproved in
/-- The invariant is true of every stack that an execution comes to. -/
theorem Program.Arrives.stands {f : Function} {stack : List (Frame M)}
    (ha : p.Arrives M f stack) (hf : f ∈ p.functions) : p.Stands M stack := by
  induction ha with
  | entry he hpre hs => exact .bottom hf (Function.sound_entry hv hf he hpre hs)
  | move _ hm ih => exact hm.stands hv hh ho hk hproved ih

include hv hh ho hk hproved in
/-- And where it is true, nothing is wrong. -/
theorem Program.Stands.right {stack : List (Frame M)} (hs : p.Stands M stack) :
    p.StackRight M stack where
  frames r hr := by
    obtain ⟨hf, hsound⟩ := hs.sound hr
    obtain ⟨hok, hprf⟩ := hproved _ hf
    exact Function.right_of_sound hv hh ho hf hok hprf hsound
  returns := by
    rintro f g b x a rest s t targets id args below rfl hx ha
    obtain ⟨hs, hg, hresults, post, base, hpost, hholds⟩ :=
      allows_of_exit hv hh ho hk hproved hs hx ha
    obtain ⟨hf, hsound⟩ := hs.top
    obtain ⟨i, hi, hmem⟩ := (hsound.grounded rfl).exists_block rfl
    obtain ⟨g', hg', hsite⟩ :=
      Function.callSite_of_action hh.kinds hf (Function.checked_of_validate hv hf) hi hmem ha
    cases hg.symm.trans hg'
    refine ⟨post, hpost, fun base' => ?_⟩
    exact (Function.holds_leave_congr hh hsite.mem hpost (hsite.suits_args s) hresults
      base base').1 hholds

end Stands

/-! ## Verified programs

From the verdict of a sound checker to executions. The ideal checker serves as one for the
examples. -/

theorem Counting.certified_increment : Counting.increment.Certified M Counting.program := by
  refine ⟨_, by cbv, ?_⟩
  simp only [List.forall_mem_cons]
  refine ⟨⟨_, by cbv, fun s => ?_⟩, List.forall_mem_nil _⟩
  exact Expr.holds_implies.2 fun _ => (Expr.holds_eq (by decide)).2 rfl

/-- If a sound checker leads to the verdict `verified` on a program whose functions keep their
parameters, then nothing is wrong at any stack that an execution of a function comes to. -/
theorem verified_runs_right {W ε : Type} {c : Checker ε (StateM W)} {M : Meaning}
    (hc : c.Sound M) {p : Program} (hh : p.Hygienic) (ho : p.OwnLengths)
    (hk : p.KeepsParameters) {keepGoing : Bool} {w : W} {report : ProgramReport}
    (hr : ((c.verify p keepGoing).run w).1 = .ok report) (hverdict : report.verdict = .verified)
    {f : Function} (hf : f ∈ p.functions) {stack : List (Frame M)} (ha : p.Arrives M f stack) :
    p.StackRight M stack := by
  obtain ⟨hv, hproved⟩ := Checker.proved_of_verify hc hr hverdict
  exact (ha.stands hv hh ho hk hproved hf).right hv hh ho hk hproved

open Counting Lengths in
/-- An execution that counts to one, where the call returns. -/
theorem verified_runs_right_count :
    ∃ (c : Checker Empty (StateM Unit)) (report : ProgramReport) (stack : List (Frame meaning)),
      c.Sound meaning ∧ program.Hygienic ∧ program.OwnLengths ∧ program.KeepsParameters ∧
      ((c.verify program false).run ()).1 = .ok report ∧ report.verdict = .verified ∧
      count ∈ program.functions ∧ program.Arrives meaning count stack ∧ stack.length = 2 ∧
      program.StackRight meaning stack := by
  have hc := Checker.sound_ideal meaning
  have hv : program.validate = .ok () := by cbv
  have hh : program.Hygienic := by decide +kernel
  have ho : program.OwnLengths := by decide +kernel
  have hk : program.KeepsParameters := by decide +kernel
  have hf : count ∈ program.functions := by simp [program]
  have hall : ∀ f ∈ program.functions, f.Certified meaning program :=
    List.forall_mem_cons.2 ⟨certified_increment, List.forall_mem_singleton.2 certified_count⟩
  obtain ⟨report, hr, hverdict⟩ := Checker.verify_ideal hv hall false ()
  let s : State meaning := state.set "n" (.int 1)
  have h : program.Arrives meaning count _ := .entry (s := s) rfl rfl rfl
  have h := h.move (.jump (j := 1) (.head _) rfl)
  have h := h.move (.statement (.assign _ _ _) (by simp))
  have h := h.move (.jump (j := 2) (.head _) rfl)
  have h := h.move (.jump (j := 3) (.head _) rfl)
  have h := h.move (.statement (.assume rfl) (by simp))
  have h := h.move (.call rfl rfl rfl state)
  have h := h.move (.jump (j := 2) (.head _) rfl)
  have h := h.move (.statement (.assign _ _ _) (by simp))
  have h := h.move (.jump (j := 1) (.head _) rfl)
  exact ⟨_, report, _, hc, hh, ho, hk, hr, hverdict, hf, h, rfl,
    verified_runs_right hc hh ho hk hr hverdict hf h⟩

namespace Overwriting

open Sample (r x y)

/-- The body `x := 1; r := 1`, with the postcondition `r == x`. -/
def echo : Function := ⟨"echo", 0, [x], [r], 0, 1, [
  ⟨0, .precondition (.bool true) [], [], [2], []⟩,
  ⟨1, .postcondition (.binary .eq (.var r) (.var x)), [2], [], []⟩,
  ⟨2, .basic, [0], [1], [⟨0, .assign x (.int 1)⟩, ⟨1, .assign r (.int 1)⟩]⟩]⟩

/-- The body `y := echo(0)`, with the postcondition `y == 0`. -/
def main : Function := ⟨"main", 1, [], [y], 0, 1, [
  ⟨0, .precondition (.bool true) [], [], [2], []⟩,
  ⟨1, .postcondition (.binary .eq (.var y) (.int 0)), [2], [], []⟩,
  ⟨2, .basic, [0], [1], [⟨0, .call [y] 0 [.int 0]⟩]⟩]⟩

/-- A callee assigns a parameter that its postcondition mentions. -/
def program : Program where
  types := .ofList [⟨[.int], [.int]⟩, ⟨[], [.int]⟩]
  functions := [echo, main]

theorem certified_echo : echo.Certified M program := by
  refine ⟨_, by cbv, ?_⟩
  simp only [List.forall_mem_cons]
  refine ⟨⟨_, by cbv, fun s => ?_⟩, List.forall_mem_nil _⟩
  exact Expr.holds_implies.2 fun _ => (Expr.holds_eq (by decide)).2 rfl

theorem certified_main : main.Certified M program := by
  refine ⟨_, by cbv, ?_⟩
  simp only [List.forall_mem_cons]
  refine ⟨⟨_, by cbv, fun s => ?_⟩, List.forall_mem_nil _⟩
  exact Expr.holds_implies.2 fun _ => Expr.holds_implies.2 id

end Overwriting

/-- A sound checker leads to the verdict `verified`, and yet an execution comes to a stack where
something is wrong. -/
def Program.Misleads (M : Meaning) (p : Program) : Prop :=
  ∃ report, (((Checker.ideal M).verify p false).run ()).1 = .ok report ∧
    report.verdict = .verified ∧
    ∃ f ∈ p.functions, ∃ stack, p.Arrives M f stack ∧ ¬ p.StackRight M stack

open Lengths in
/-- A verified program may go wrong where a callee assigns its parameter, or where two arrays
share a length. -/
theorem verified_runs_wrong :
    (Overwriting.program.Hygienic ∧ Overwriting.program.OwnLengths ∧
      Overwriting.program.Misleads meaning) ∧
    sharing.Hygienic ∧ sharing.KeepsParameters ∧ sharing.Misleads meaning := by
  refine ⟨⟨by decide +kernel, by decide +kernel, ?_⟩, by decide +kernel, by decide +kernel, ?_⟩
  · have hall : ∀ f ∈ Overwriting.program.functions, f.Certified meaning Overwriting.program :=
      List.forall_mem_cons.2
        ⟨Overwriting.certified_echo, List.forall_mem_singleton.2 Overwriting.certified_main⟩
    obtain ⟨report, hr, hverdict⟩ := Checker.verify_ideal (by cbv) hall false ()
    have h : Overwriting.program.Arrives meaning Overwriting.main _ :=
      .entry (s := state) rfl rfl rfl
    have h := h.move (.jump (j := 2) (.head _) rfl)
    have h := h.move (.call rfl rfl rfl state)
    have h := h.move (.jump (j := 2) (.head _) rfl)
    have h := h.move (.statement (.assign _ _ _) (by simp))
    have h := h.move (.statement (.assign _ _ _) (by simp))
    have h := h.move (.jump (j := 1) (.head _) rfl)
    have h := h.move (.back rfl rfl)
    have h := h.move (.jump (j := 1) (.head _) rfl)
    refine ⟨report, hr, hverdict, _, .tail _ (.head _), _, h, fun hright => ?_⟩
    -- `main` is at its exit with `y` equal to one
    have hpost := (hright.frames _ List.mem_cons_self).postcondition rfl _ rfl
    cases (Expr.holds_eq (by decide)).1 hpost
  · have hall : ∀ f ∈ sharing.functions, f.Certified meaning sharing :=
      List.forall_mem_singleton.2 certified_copy
    obtain ⟨report, hr, hverdict⟩ := Checker.verify_ideal (by cbv) hall false ()
    have h : sharing.Arrives meaning copy _ := .entry (s := state) rfl rfl rfl
    have h := h.move (.jump (j := 2) (.head _) rfl)
    have h := h.move (.statement (.assign _ _ _) (by simp))
    have h := h.move (.statement (.assign _ _ _) (by simp))
    have h := h.move (.jump (j := 1) (.head _) rfl)
    refine ⟨report, hr, hverdict, _, .head _, _, h, fun hright => ?_⟩
    cases (hright.frames _ List.mem_cons_self).postcondition rfl _ rfl

end Pathwise
