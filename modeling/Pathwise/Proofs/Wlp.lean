import Pathwise.Proofs.CallSite
import Pathwise.Proofs.Exposed

/-!
# Pathwise.Proofs.Wlp

Folding a path gives its weakest liberal precondition.

Each statement is dealt with in its own lemma, which says that the formula before the statement is
assured exactly if the statement secures that the formula after it is assured (`Program.Folds`).
The formula of a whole path follows by induction.

An assignment is a substitution. A store is the assignment of an update of the array, where the
length is replaced by itself. Assertions and assumptions put their condition in front, as a
conjunct or as a premise. A call is the interesting case: the formula after it has to be true for
all results that the contract allows, and the quantifier over results becomes the quantifier over
values of fresh variables (`Function.CallSite.assured_call`).

The precondition is liberal in that nothing is said about runs that block or do not end.
Preconditions of callees do not occur here either: they are obligations of paths of their own,
which end before the call.
-/

namespace Pathwise

variable {M : Meaning}

/-- Folding the statement `a` of `f` turns the formula of `r` into that of `r'`, and this is
its weakest liberal precondition. -/
structure Program.Folds (M : Meaning) (p : Program) (f : Function) (a : Statement)
    (r r' : Running) : Prop where
  result : p.foldStatement f a r = .ok r'
  text : f.Says p r'.fresh r'.formula
  /-- The formula before the statement is assured if the statement secures the one after. -/
  meaning : ∀ s : State M,
    r'.formula.Assured M s ↔ a.action.Secures M p s fun s' => r.formula.Assured M s'

/-! ## Assignments and stores

Expressions that are assigned have no fresh variables, so their values are the same in all states
that look the same. This is what the middle step of `assured_assign` uses. -/

section Assign

variable {p : Program} {f : Function} {n : Nat} {φ e : Expr} {v : Variable} (hh : p.Hygienic)
  (ho : p.OwnLengths) (hf : f ∈ p.functions) (hφ : f.Says p n φ) (he : f.Says p 0 e)
  (hv : v ∈ f.targets) (hfits : v.Fits e)

include hh hf hv hfits in
theorem Function.assigns_target : Assigns (f.Speaks n) v e where
  mem := Or.inl (stateVariables_of_targets hv)
  fits := hfits
  noLength hw hl :=
    hw.ne_length hh hf (stateVariables_of_targets hv) (hh.lengths f hf v hv) hl

include hh ho hf hφ he hv hfits in
/-- An assignment turns formulas of a function into such formulas. -/
theorem Function.says_assign : f.Says p n (Expr.substUnder (replacement [(v, e)]) [] φ) := by
  refine says_replacement hh ho hf hf hφ ?_ ?_ fun w hw _ => hφ.reads w hw
  · simpa using assigns_target hh hf hv hfits
  · simpa using he.mono (Nat.zero_le n)

include hh ho hf hφ he hv hfits in
/-- Replacing a variable by an expression is the weakest precondition of the assignment, also
where fresh variables may have any values. -/
theorem Function.assured_assign (s : State M) :
    (Expr.substUnder (replacement [(v, e)]) [] φ).Assured M s ↔
      φ.Assured M (s.assign v (e.item M s)) := by
  have hassigns : ∀ q ∈ [(v, e)], Assigns (f.Speaks n) q.1 q.2 := by
    simpa using assigns_target hh hf hv hfits
  have htext : ∀ q ∈ [(v, e)], f.Says p n q.2 := by simpa using he.mono (Nat.zero_le n)
  have hreserved : ∀ w ∈ v.withLength, ¬ Reserved w.name := fun w hw =>
    hh.not_reserved hf (stateVariables_of_mem (List.mem_append_right _ hv) hw)
  calc (Expr.substUnder (replacement [(v, e)]) [] φ).Assured M s
      ↔ ∀ t, Visible s t → φ.Holds M (t.assign v (e.item M s)) := by
        refine forall₂_congr fun t hst => ?_
        rw [holds_replacement hh ho hf hf hφ hassigns htext, List.map_singleton,
          he.item_of_visible hh hf hst]
        rfl
    _ ↔ φ.Assured M (s.assign v (e.item M s)) :=
        assured_update (fun t hst => hst.assign v _) fun t x ty hx =>
          State.read_assign_of_ne (fun w hw hxw => hreserved w hw (hxw ▸ hx)) t _ ty

end Assign

/-- Replacing an array by an update of it replaces its length by itself. So a store, which
replaces only the array, is an assignment like others. -/
theorem Vocabulary.subst_update {V : Variable → Prop} (hV : Vocabulary V) {v l : Variable}
    (hv : V v) (hl : v.length? = some l) {φ : Expr} (hφ : ∀ w ∈ φ.reads [], V w) (i e : Expr) :
    φ.subst v.name (.update (.var v) i e (.var l)) =
      Expr.substUnder (replacement [(v, .update (.var v) i e (.var l))]) [] φ := by
  -- the two substitutions do the same to every exposed variable
  refine Expr.substUnder_congr fun w hw => ?_
  replace hw := Expr.mem_reads_of_exposed hw
  rw [Expr.substUnder_var_of_not_mem List.not_mem_nil,
    Expr.substUnder_var_of_not_mem List.not_mem_nil, replacement, replacement, Option.none_or,
    Variable.replaces, hl]
  dsimp only
  by_cases hwl : w.name = l.name
  · have hwv : ¬ w.name = v.name := fun h => hV.name_ne_length hv hl (h.symm.trans hwl)
    rw [if_neg hwv, if_pos hwl, hV.unique (hφ w hw) (hV.closed hv hl) hwl]
    rfl
  · rw [if_neg hwl]

/-- The assignment of an update leaves the length of the array as it is. -/
theorem State.assign_update {v l : Variable} (hl : v.length? = some l) (hne : v.name ≠ l.name)
    (i e : Expr) (s : State M) :
    s.assign v ((Expr.update (.var v) i e (.var l)).item M s) =
      s.set v.name ((s.read v.name v.ty).store M.zero (i.value M s) (e.value M s)) := by
  unfold assign Expr.item
  rw [hl, Expr.lengthValue?, Expr.value, Expr.value, Expr.value]
  ext x ty
  rw [read_set]
  split
  · next h => rw [h.1, h.2, s.typed, read_set_of_ne _ _ _ hne.symm]
  · rfl

namespace Program

variable {p : Program} {f : Function} {i : BlockId} {b : Block} {a : Statement} {r : Running}
  (hh : p.Hygienic) (ho : p.OwnLengths) (hf : f ∈ p.functions) (hc : f.Checked p)
  (hb : f.block? i = some b) (ha : a ∈ b.statements) (hr : f.Says p r.fresh r.formula)

include hf hc hb ha in
theorem fits_of_assign (hk : p.ArrayKinds) {v : Variable} {e : Expr}
    (hs : a.action = .assign v e) : v.Fits e := by
  have he : e ∈ f.exprs := Function.mem_exprs_of_action hb ha (by simp [hs, Action.exprs])
  have hv : v ∈ f.targets := Function.mem_targets_of_action hb ha (by simp [hs, Action.targets])
  exact .of_check (validate_assign (hc.statement hb ha) hs) (Function.kind_of_target hk hf hv)
    fun u hu => Function.kind_of_reads hk hf he hu

/-- Folding an assignment replaces the variable, and its length with it. -/
theorem foldStatement_assign {v : Variable} {e : Expr} (hs : a.action = .assign v e)
    (hfits : v.Fits e) (r : Running) :
    p.foldStatement f a r =
      .ok ⟨Expr.substUnder (replacement [(v, e)]) [] r.formula, r.fresh⟩ := by
  obtain ⟨σ, hσ⟩ := hfits.exists_assignment
  have hfind : σ.find? = replacement [(v, e)] := by
    funext x
    rw [(Variable.assignment_ok hσ).2, replacement, replacement, Option.none_or]
  simp only [foldStatement, hs, hσ, bind, Except.bind, Expr.substAll, hfind]
  rfl

include hc hb ha in
/-- Folding a store replaces the array by an update with the same length. The check of types has
been passed in validation already. -/
theorem foldStatement_store {v : Variable} {k e : Expr} (hs : a.action = .store v k e)
    (r : Running) :
    ∃ l, v.length? = some l ∧ p.foldStatement f a r =
      .ok ⟨r.formula.subst v.name (.update (.var v) k e (.var l)), r.fresh⟩ := by
  obtain ⟨harr, elem, helem, -, hcheck⟩ := validate_store (hc.statement hb ha) hs
  obtain ⟨l, hl⟩ := Option.isSome_iff_exists.1 (v.isArray_iff_length? ▸ harr)
  refine ⟨l, hl, ?_⟩
  simp only [foldStatement, hs, hl, helem]
  rw [if_neg (by rw [ty_of_check hcheck]; simp)]

include hh ho hf hc hb ha hr in
/-- Assignments are folded correctly. -/
theorem folds_assign {v : Variable} {e : Expr} (hs : a.action = .assign v e) :
    ∃ r', Folds M p f a r r' := by
  have he : e ∈ f.exprs := Function.mem_exprs_of_action hb ha (by simp [hs, Action.exprs])
  have hv : v ∈ f.targets := Function.mem_targets_of_action hb ha (by simp [hs, Action.targets])
  have htext := Function.says_of_mem hf he 0
  have hfits := fits_of_assign hf hc hb ha hh.kinds hs
  refine ⟨_, foldStatement_assign hs hfits r,
    Function.says_assign hh ho hf hr htext hv hfits, fun s => ?_⟩
  rw [hs, Action.secures_assign]
  exact Function.assured_assign hh ho hf hr htext hv hfits s

include hh ho hf hc hb ha hr in
/-- So are stores, which are assignments of updates. -/
theorem folds_store {v : Variable} {k e : Expr} (hs : a.action = .store v k e) :
    ∃ r', Folds M p f a r r' := by
  have hk : k ∈ f.exprs := Function.mem_exprs_of_action hb ha (by simp [hs, Action.exprs])
  have he : e ∈ f.exprs := Function.mem_exprs_of_action hb ha (by simp [hs, Action.exprs])
  have hv : v ∈ f.targets := Function.mem_targets_of_action hb ha (by simp [hs, Action.targets])
  obtain ⟨l, hl, hfold⟩ := foldStatement_store hc hb ha hs r
  -- a store is the assignment of an update
  have hV := Function.vocabulary hh ho hf r.fresh
  have hvs : f.Speaks r.fresh v := Or.inl (Function.stateVariables_of_targets hv)
  have hfits : v.Fits (.update (.var v) k e (.var l)) := {
    ty := rfl
    length := by rw [hl]; rfl
    lengthTy := fun _ hn => Option.some.inj hn ▸ Variable.ty_of_length? hl }
  have htext : f.Says p 0 (.update (.var v) k e (.var l)) := by
    have hv₀ : v ∈ f.stateVariables := Function.stateVariables_of_targets hv
    refine Function.says_of_children rfl ?_
    simp only [Expr.children, List.forall_mem_cons]
    exact ⟨Function.says_var (Or.inl hv₀), Function.says_of_mem hf hk 0,
      Function.says_of_mem hf he 0,
      Function.says_var (Or.inl (Function.length?_mem_stateVariables hv₀ hl)), by simp⟩
  rw [hV.subst_update hvs hl hr.reads] at hfold
  refine ⟨_, hfold, Function.says_assign hh ho hf hr htext hv hfits, fun s => ?_⟩
  rw [hs, Action.secures_store, ← State.assign_update hl (hV.name_ne_length hvs hl)]
  exact Function.assured_assign hh ho hf hr htext hv hfits s

/-! ## Assertions and assumptions

The condition is an expression of the text. It can be split off from the formula, whose fresh
variables it does not have. -/

include hh hf hb ha hr in
theorem folds_assert {c : Expr} (hs : a.action = .assert c) : ∃ r', Folds M p f a r r' := by
  have hmem : c ∈ f.exprs := Function.mem_exprs_of_action hb ha (by simp [hs, Action.exprs])
  have htext := Function.says_of_mem hf hmem 0
  refine ⟨⟨.and c r.formula, r.fresh⟩, by rw [foldStatement, hs],
    (htext.mono (Nat.zero_le _)).and hr, fun s => ?_⟩
  rw [hs, Action.secures_assert, ← htext.assured_iff hh hf s]
  simp only [Expr.Assured, Expr.holds_and, forall_and]

include hh hf hb ha hr in
theorem folds_assume {c : Expr} (hs : a.action = .assume c) : ∃ r', Folds M p f a r r' := by
  have hmem : c ∈ f.exprs := Function.mem_exprs_of_action hb ha (by simp [hs, Action.exprs])
  have htext := Function.says_of_mem hf hmem 0
  refine ⟨⟨.implies c r.formula, r.fresh⟩, by rw [foldStatement, hs],
    (htext.mono (Nat.zero_le _)).implies hr, fun s => ?_⟩
  rw [hs, Action.secures_assume]
  exact htext.assured_implies hh hf r.formula s

end Program

/-! ## Calls

Two substitutions are made with the same fresh variables, one in the postcondition and one in the
formula. What they mean is known from the call site; what remains is to choose the values of the
fresh variables. -/

/-- Folding a formula over a call puts fresh variables in the place of the results in the
postcondition, and in the place of the targets in the formula. -/
theorem Program.eq_of_foldCall {p : Program} {targets : List Variable} {id : FunctionId}
    {args : List Expr} {r r' : Running} (h : p.foldCall targets id args r = .ok r') :
    ∃ g post, p.function? id = some g ∧ g.postcondition? = some post ∧
      r' = ⟨.implies
        (Expr.substUnder (replacement (g.parameters.zip args ++
          g.results.zip ((Variable.freshAll r.fresh targets).map Expr.var))) [] post)
        (Expr.substUnder (replacement
          (targets.zip ((Variable.freshAll r.fresh targets).map Expr.var))) [] r.formula),
        r.fresh + targets.length⟩ := by
  obtain ⟨g, hg, h⟩ := bind_eq_ok_iff.1 h
  obtain ⟨hlen, h⟩ := seq_eq_ok_iff.1 h
  obtain ⟨σ, hσ, h⟩ := bind_eq_ok_iff.1 h
  obtain ⟨d, hd, h⟩ := bind_eq_ok_iff.1 h
  obtain ⟨post, hpost, h⟩ := bind_eq_ok_iff.1 h
  cases h
  have hlen : g.results.length = targets.length := of_decide_eq_true (require_eq_ok_iff.1 hlen)
  obtain ⟨hcontract, hhavoc⟩ := CallEffect.find?_bindResults hd
  rw [List.map_fst_zip (Nat.le_of_eq hlen), List.map_snd_zip (Nat.le_of_eq hlen.symm)] at hcontract
  rw [List.map_snd_zip (Nat.le_of_eq hlen.symm)] at hhavoc
  have hcontract' : d.contract.find? = replacement (g.parameters.zip args ++
      g.results.zip ((Variable.freshAll r.fresh targets).map Expr.var)) := by
    funext x
    rw [hcontract, replacement_append, Function.find?_of_bind hσ]
  have hhavoc' : d.havoc.find? =
      replacement (targets.zip ((Variable.freshAll r.fresh targets).map Expr.var)) := by
    funext x
    rw [hhavoc, SortedMap.find?_empty, Option.or_none]
  refine ⟨g, post, getOr_eq_ok_iff.1 hg, getOr_eq_ok_iff.1 hpost, ?_⟩
  rw [Expr.substAll, Expr.substAll, hcontract', hhavoc']

namespace Function.CallSite

variable {p : Program} {f g : Function} {targets : List Variable} {args : List Expr} {n : Nat}
  {φ : Expr} (hh : p.Hygienic) (ho : p.OwnLengths) (hf : f ∈ p.functions)
  (hs : f.CallSite p g targets args) (hφ : f.Says p n φ)

include hh hf hs in
/-- Fresh variables may be assigned to the targets of a call, each at the type of its target. -/
theorem assigns_havoc :
    ∀ q ∈ targets.zip ((Variable.freshAll n targets).map Expr.var),
      Assigns (f.Speaks n) q.1 q.2 := by
  intro q hq
  have hq₁ := hs.targets_mem q.1 (List.of_mem_zip hq).1
  refine assigns_target hh hf hq₁ (Variable.fits_freshAll (fun q hq => ?_) n q hq)
  rw [List.zip, List.zipWith_self] at hq
  obtain ⟨t, ht, rfl⟩ := List.mem_map.1 hq
  have hkind := kind_of_target hh.kinds hf (hs.targets_mem t ht)
  exact ⟨rfl, hkind, hkind⟩

include hs in
theorem says_fresh :
    ∀ q ∈ targets.zip ((Variable.freshAll n targets).map Expr.var),
      f.Says p (n + targets.length) q.2 := by
  intro q hq
  obtain ⟨v, hv, hvq⟩ := List.mem_map.1 (List.of_mem_zip hq).2
  rw [← hvq]
  exact says_var (hs.speaks_of_freshAll n hv)

include hh ho hf hs hφ in
/-- With fresh variables for the targets, a formula is still one of the function. -/
theorem says_havoc :
    f.Says p (n + targets.length)
      (.substUnder (replacement (targets.zip ((Variable.freshAll n targets).map Expr.var))) [] φ) :=
  says_replacement hh ho hf hf hφ (hs.assigns_havoc hh hf) hs.says_fresh fun v hv _ =>
    (hφ.reads v hv).mono (Nat.le_add_right n _)

include hh ho hf hs hφ in
/-- With fresh variables for the targets, a formula speaks of the state in which the targets
have received the values of the fresh variables. -/
theorem holds_havoc (t : State M) :
    (Expr.substUnder (replacement (targets.zip ((Variable.freshAll n targets).map Expr.var))) []
        φ).Holds M t ↔
      φ.Holds M (t.assignAll
        (targets.zip ((Variable.freshAll n targets).map fun v => (Expr.var v).item M t))) := by
  rw [holds_replacement hh ho hf hf hφ (hs.assigns_havoc hh hf) hs.says_fresh, List.zip_map_right,
    List.zip_map_right, List.map_map]
  rfl

include hh hf hs in
/-- A fresh variable that was introduced before a call is neither among the targets nor among
the fresh variables of the call. -/
theorem ne_of_reserved {u v w : Variable} (hu : f.Speaks n u) (hr : Reserved u.name)
    (hv : v ∈ targets ++ Variable.freshAll n targets) (hw : w ∈ v.withLength) :
    u.name ≠ w.name := by
  intro hn
  rcases List.mem_append.1 hv with hv | hv
  · exact hh.not_reserved hf (stateVariables_of_mem
      (List.mem_append_right _ (hs.targets_mem v hv)) hw) (hn ▸ hr)
  · obtain ⟨t', -, j, hj, -, rfl⟩ := Variable.mem_freshAll hv
    rcases hu with hu | ⟨t, -, k, hk, hu⟩
    · exact hh.not_reserved hf hu hr
    · obtain ⟨-, hkj, -⟩ := Variable.eq_of_mem_withLength_fresh hu hw hn
      omega

include hh ho hf hs hφ in
/-- A formula is assured before a call if it is assured after the call for all results that
the contract allows. -/
theorem assured_call {post : Expr} (hpost : g.postcondition? = some post) (s : State M) :
    (Expr.implies
      (Expr.substUnder (replacement (g.parameters.zip args ++
        g.results.zip ((Variable.freshAll n targets).map Expr.var))) [] post)
      (Expr.substUnder (replacement (targets.zip ((Variable.freshAll n targets).map Expr.var)))
        [] φ)).Assured M s ↔
      ∀ results, g.Allows M (args.map (Expr.item M s)) results →
        φ.Assured M (s.assignAll (targets.zip results)) := by
  have hargs : ∀ t, Visible s t → args.map (Expr.item M t) = args.map (Expr.item M s) :=
    fun t hst => List.map_congr_left fun e he =>
      (says_of_mem hf (hs.args_mem e he) 0).item_of_visible hh hf hst
  constructor
  · rintro h results ⟨hsuits, post', base, hpost', hholds⟩ t hst
    cases hpost.symm.trans hpost'
    -- the state before the call in which the fresh variables hold the results
    let u := (s.overlay t).assignAll ((Variable.freshAll n targets).zip results)
    have hsu : Visible s u := by
      refine (visible_overlay s t).assignAll_reserved fun q hq w hw => ?_
      obtain ⟨t', -, j, -, -, hq'⟩ := Variable.mem_freshAll (List.of_mem_zip hq).1
      exact Variable.reserved_of_mem_withLength_fresh (hq' ▸ hw)
    have hresults : (Variable.freshAll n targets).map (fun v => (Expr.var v).item M u) = results :=
      Variable.map_item_freshAll n (Variable.suits_freshAll hs.targets_length
        (fun q hq => hs.kinds hf hh.kinds hq) n hsuits) _
    have hu := Expr.holds_implies.1 (h u hsu)
    rw [hs.holds_postcondition hh ho hf hpost n u base, hargs u hsu, hs.holds_havoc hh ho hf hφ,
      hresults] at hu
    -- it differs from `t` only in fresh variables of the call, which `φ` does not read
    refine (Expr.holds_congr fun v hv w hw => ?_).1 (hu hholds)
    have hspeaks := hφ.speaks_of_mem hh ho hf hv hw
    by_cases hr : Reserved w.name
    · rw [State.read_assignAll_of_ne fun q hq v' hv' => hs.ne_of_reserved hh hf hspeaks hr
          (List.mem_append_left _ (List.of_mem_zip hq).1) hv',
        State.read_assignAll_of_ne fun q hq v' hv' => hs.ne_of_reserved hh hf hspeaks hr
          (List.mem_append_right _ (List.of_mem_zip hq).1) hv']
      exact if_pos hr
    · rw [hst _ hr, hsu.assignAll _ _ hr]
  · intro h t hst
    rw [Expr.holds_implies, hs.holds_postcondition hh ho hf hpost n t t, hargs t hst,
      hs.holds_havoc hh ho hf hφ]
    intro hholds
    -- the contract allows the values of the fresh variables as results
    have hallows := h _ ⟨Variable.items_freshAll_suit hs.targets_length
      (fun q hq => hs.kinds hf hh.kinds hq) n t, post, t, hpost, hholds⟩
    exact hallows _ (hst.assignAll _)

include hf hs in
/-- Where validation has passed, folding a call does not fail: all substitutions can be made, and
the result is the formula that is expected. -/
theorem foldCall_ok (hk : p.ArrayKinds) {id : FunctionId} (hg : p.function? id = some g)
    {post : Expr} (hpost : g.postcondition? = some post) (r : Running) :
    p.foldCall targets id args r = .ok
      ⟨.implies
        (Expr.substUnder (replacement (g.parameters.zip args ++
          g.results.zip ((Variable.freshAll r.fresh targets).map Expr.var))) [] post)
        (Expr.substUnder (replacement
          (targets.zip ((Variable.freshAll r.fresh targets).map Expr.var))) [] r.formula),
        r.fresh + targets.length⟩ := by
  -- it is enough that there is a result, since every result is as expected
  obtain ⟨σ, hσ, -⟩ := hs.bind_ok
  obtain ⟨d, hd⟩ := CallEffect.exists_bindResults
    (fun q hq => hs.kinds hf hk hq) r.fresh ⟨σ, .empty⟩
  have hfold : ∃ r', p.foldCall targets id args r = .ok r' :=
    ⟨_, bind_eq_ok_iff.2 ⟨g, getOr_eq_ok_iff.2 hg, seq_eq_ok_iff.2
      ⟨require_eq_ok_iff.2 (decide_eq_true hs.targets_length), bind_eq_ok_iff.2 ⟨σ, hσ,
        bind_eq_ok_iff.2 ⟨d, hd, bind_eq_ok_iff.2 ⟨post, getOr_eq_ok_iff.2 hpost, rfl⟩⟩⟩⟩⟩⟩
  obtain ⟨r', hr'⟩ := hfold
  obtain ⟨g', post', hg', hpost', rfl⟩ := Program.eq_of_foldCall hr'
  cases hg.symm.trans hg'
  cases hpost.symm.trans hpost'
  exact hr'

end Function.CallSite

/-! ## Paths

The fold goes from the last statement to the first, and the number of fresh variables grows on the
way. -/

namespace Program

variable {p : Program} {f : Function} (hval : p.validate = .ok ()) (hh : p.Hygienic)
  (ho : p.OwnLengths) (hf : f ∈ p.functions)

include hval hh ho hf in
/-- Every statement of a valid program is folded correctly. This is the step lemma of the fold,
with one case for each kind of action. -/
theorem exists_folds {i : BlockId} {b : Block} (hb : f.block? i = some b) {a : Statement}
    (ha : a ∈ b.statements) {r : Running} (hr : f.Says p r.fresh r.formula) :
    ∃ r', Folds M p f a r r' := by
  have hc := Function.checked_of_validate hval hf
  cases hs : a.action with
  | assign v e => exact folds_assign hh ho hf hc hb ha hr hs
  | store v k e => exact folds_store hh ho hf hc hb ha hr hs
  | assert c => exact folds_assert hh hf hb ha hr hs
  | assume c => exact folds_assume hh hf hb ha hr hs
  | call targets id args =>
      obtain ⟨g, hg, hsite⟩ := Function.callSite_of_action hh.kinds hf hc hb ha hs
      obtain ⟨post, hpost⟩ :=
        (Function.checked_of_validate hval hsite.mem).exists_postcondition?
      refine ⟨_, by rw [foldStatement, hs]; exact hsite.foldCall_ok hf hh.kinds hg hpost r,
        (hsite.says_postcondition hh ho hf hpost r.fresh).implies (hsite.says_havoc hh ho hf hr),
        fun s => ?_⟩
      rw [hs, Action.secures_call hg]
      exact hsite.assured_call hh ho hf hr hpost s

include hval hh ho hf in
/-- Folding statements of a function gives their weakest liberal precondition. By induction on the
list, where the formula after the first statement is that of the rest. -/
theorem foldStatements_ok {statements : List Statement}
    (hs : ∀ a ∈ statements, ∃ i b, f.block? i = some b ∧ a ∈ b.statements) {φ : Expr}
    (hφ : f.Says p 0 φ) :
    ∃ r, p.foldStatements f statements ⟨φ, 0⟩ = .ok r ∧ f.Says p r.fresh r.formula ∧
      ∀ s : State M,
        r.formula.Assured M s ↔ Ensures M p statements s fun s' => φ.Assured M s' := by
  induction statements with
  | nil => exact ⟨_, rfl, hφ, fun s => by rw [ensures_nil]⟩
  | cons a rest ih =>
      obtain ⟨⟨i, b, hb, ha⟩, hrest⟩ := List.forall_mem_cons.1 hs
      obtain ⟨r, hr, htext, hmeaning⟩ := ih hrest
      obtain ⟨r', hfolds⟩ := exists_folds (M := M) hval hh ho hf hb ha htext
      refine ⟨r', ?_, hfolds.text, fun s => ?_⟩
      · rw [foldStatements, hr]
        exact hfolds.result
      · rw [hfolds.meaning, ensures_cons, Action.secures_congr hmeaning]

end Program

end Pathwise
