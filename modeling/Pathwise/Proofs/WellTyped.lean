import Pathwise.Proofs.Defects
import Pathwise.Proofs.Exposed

/-!
# Pathwise.Proofs.WellTyped

Verification conditions are well-typed formulas.

Substitution goes by name and does not look at types. It acts on the occurrences of a name outside
of the quantifiers that bind it (`Expr.exposed`), and keeps the type of an expression if each of
them has the type of what takes its place (`Program.check_substUnder`). On a path of a function,
what is replaced are variables that the function assigns. Inside the function a name has one type,
so its own text never stands in the way. But the formula of a path also holds names that come from
elsewhere: those of a callee's contract that are no parameters or results, and fresh names.
`Program.Compatible` says that none of them is assigned at another type.

The invariant of the fold is `Function.Types`. It has the type of the formula, and what later
statements need to keep it: that arrays have lengths, and that the function assigns no exposed
name of the formula at another type. The statements of the function come from its text, for which
both hold. Everything else is about calls, where the contract of another function becomes part of
the formula.

That a condition exists is part of the statement. The fold fails where the length of an array is
asked for and there is none, and in a typed formula there is one.

Without compatibility the statement is wrong. The last section has a program that is validated and
whose names are unique in each function, and yet two of its conditions are no formulas.
-/

namespace Pathwise

/-! ## Types

Substitution keeps types. The check of an expression is taken apart and put together again in each
case, with the same premises for what was replaced. -/

/-- A substitution keeps the type of an expression if every exposed variable has the type of
its replacement. -/
theorem Program.check_substUnder {p : Program} {σ : String → Option Expr} {bound : List String}
    {e : Expr} {t : Ty} (h : p.check e = .ok t)
    (hσ : ∀ v ∈ e.exposed bound, ∀ r, σ v.name = some r → p.check r = .ok v.ty) :
    p.check (e.substUnder σ bound) = .ok t := by
  induction e generalizing bound t with
  | var v =>
      rw [Expr.substUnder]
      split
      · exact h
      · next hv =>
          cases hr : σ v.name with
          | none => exact h
          | some r =>
              rw [Option.getD_some, hσ v (by simp [Expr.exposed, hv]) r hr]
              exact h
  | int n => exact h
  | float x => exact h
  | bool b => exact h
  | unary op e ih =>
      obtain ⟨u, hu, hr⟩ := check_unary_iff.1 h
      exact check_unary_iff.2 ⟨u, ih hu hσ, hr⟩
  | binary op l r ihl ihr =>
      obtain ⟨u, hl, hr, ha, ht⟩ := check_binary_iff.1 h
      simp only [Expr.exposed, List.forall_mem_append] at hσ
      exact check_binary_iff.2 ⟨u, ihl hl hσ.1, ihr hr hσ.2, ha, ht⟩
  | quant q v body ih =>
      obtain ⟨hk, hv, hb, ht⟩ := check_quant_iff.1 h
      -- what is exposed in the body below the bound name is what the formula exposes
      exact check_quant_iff.2 ⟨hk, hv, ih hb hσ, ht⟩
  | read a i iha ihi =>
      obtain ⟨elem, ha, ht, hi⟩ := check_read_iff.1 h
      simp only [Expr.exposed, List.forall_mem_append] at hσ
      exact check_read_iff.2 ⟨elem, iha ha hσ.1, ht, ihi hi hσ.2⟩
  | update a i x n iha ihi ihx ihn =>
      obtain ⟨elem, ha, hi, hn, hx, ht⟩ := check_update_iff.1 h
      simp only [Expr.exposed, List.forall_mem_append] at hσ
      obtain ⟨⟨⟨hσa, hσi⟩, hσx⟩, hσn⟩ := hσ
      exact check_update_iff.2 ⟨elem, iha ha hσa, ihi hi hσi, ihn hn hσn, ihx hx hσx, ht⟩
  | call f args u ih =>
      obtain ⟨hargs, ht⟩ := check_call_iff.1 h
      rw [Expr.substUnder, Expr.substListUnder_eq_map]
      refine check_call_iff.2 ⟨List.forall_mem_map.2 fun e he => ?_, ht⟩
      obtain ⟨w, hw⟩ := hargs e he
      exact ⟨w, ih e he hw fun v hv => hσ v (Expr.mem_exposedList.2 ⟨e, he, hv⟩)⟩
  | app name args ih =>
      obtain ⟨ht, q, hq, hargs⟩ := check_app_iff.1 h
      rw [Expr.substUnder, Expr.substListUnder_eq_map]
      refine check_app_iff.2 ⟨ht, q, hq, ?_⟩
      rw [List.forall₂_map_right_iff, List.forall₂_iff_zip]
      refine ⟨hargs.length_eq, fun {v e} hve => ?_⟩
      have he : e ∈ args := (List.of_mem_zip hve).2
      exact ih e he (List.forall₂_zip hargs hve) fun v hv =>
        hσ v (Expr.mem_exposedList.2 ⟨e, he, hv⟩)

/-! ## Formulas on a path

The invariant and how it is kept: by expressions of the function, by substitutions of assigned
variables, by connectives and by fresh variables. -/

namespace Function

/-- The variables that a function assigns, with their lengths. -/
def assigned (f : Function) : List Variable := f.targets.flatMap Variable.withLength

/-- What the function assigns under the name of a variable is of the variable's type. -/
def Tolerates (f : Function) (v : Variable) : Prop :=
  ∀ w ∈ f.assigned, w.name = v.name → w.ty = v.ty

instance (f : Function) (v : Variable) : Decidable (f.Tolerates v) :=
  inferInstanceAs (Decidable (∀ w ∈ f.assigned, w.name = v.name → w.ty = v.ty))

/-- An expression of type `t` that may stand in a formula on a path of `f`. Besides the type it is
about what later substitutions must not break. -/
structure Types (p : Program) (f : Function) (e : Expr) (t : Ty) : Prop where
  check : p.check e = .ok t
  lengths : ∀ v ∈ e.mentions, v.ty.isArray → v.length?.isSome
  /-- Assignments of the function keep its type. -/
  tolerates : ∀ v ∈ e.exposed [], f.Tolerates v

/-- An expression may take the place of a variable, and its length that of the variable's
length. -/
structure Replaces (p : Program) (f : Function) (v : Variable) (e : Expr) : Prop where
  types : f.Types p e v.ty
  length : ∀ n, e.arrayLength? = some n → f.Types p n .int

variable {p : Program} {f : Function}

/-- The callees of a function. -/
def callees (p : Program) (f : Function) : List Function :=
  f.blocks.flatMap fun b => b.statements.filterMap fun s =>
    match s.action with
    | .call _ id _ => p.function? id
    | _ => none

theorem mem_callees {i : BlockId} {b : Block} (hb : f.block? i = some b) {a : Statement}
    (ha : a ∈ b.statements) {targets : List Variable} {id : FunctionId} {args : List Expr}
    (hs : a.action = .call targets id args) {g : Function} (hg : p.function? id = some g) :
    g ∈ f.callees p :=
  List.mem_flatMap.2 ⟨b, List.mem_of_getElem? hb, List.mem_filterMap.2 ⟨a, ha, by simp [hs, hg]⟩⟩

theorem mem_mentions_of_assigned {w : Variable} (hw : w ∈ f.assigned) : w ∈ f.mentions := by
  obtain ⟨t, ht, hwt⟩ := List.mem_flatMap.1 hw
  exact mem_mentions (stateVariables_of_mem (List.mem_append_right _ ht) hwt)

/-- An expression over variables of the function. A name has one type among them, so any
assignment is at the type of the expression. -/
theorem Types.of_mentions {e : Expr} {t : Ty} (hu : Uniform f.mentions)
    (hm : e.mentions ⊆ f.mentions) (hc : p.check e = .ok t) : f.Types p e t where
  check := hc
  lengths v hv ha := by rwa [← Variable.isArray_iff_length?, hu.kinds v (hm hv)]
  tolerates v hv w hw :=
    hu.ty w (mem_mentions_of_assigned hw) v (hm (Expr.mem_mentions_of_exposed hv))

theorem mentions_subset {e : Expr} (he : e ∈ f.exprs) : e.mentions ⊆ f.mentions := fun _ hv =>
  List.mem_append_right _ (List.mem_flatMap.2 ⟨e, he, hv⟩)

theorem Types.of_mem {e : Expr} {t : Ty} (hu : Uniform f.mentions) (he : e ∈ f.exprs)
    (hc : p.check e = .ok t) : f.Types p e t :=
  .of_mentions hu (mentions_subset he) hc

/-- Such an expression may take the place of a variable of its type. -/
theorem Replaces.of_mentions {v : Variable} {e : Expr} (hu : Uniform f.mentions)
    (hm : e.mentions ⊆ f.mentions) (hc : p.check e = .ok v.ty) : f.Replaces p v e where
  types := .of_mentions hu hm hc
  length n hn := by
    cases e with
    | var u =>
        obtain ⟨l, hl, rfl⟩ := Option.map_eq_some_iff.1 hn
        rw [Expr.mentions_var] at hm
        refine .of_mentions hu ?_ (by rw [Program.check, Variable.ty_of_length? hl])
        rw [Expr.mentions_var]
        exact fun w hw => hm (Variable.withLength_subset (by simp [hl]) hw)
    | update a i x m =>
        cases hn
        obtain ⟨elem, -, -, hcn, -⟩ := Program.check_update_iff.1 hc
        refine .of_mentions hu (fun w hw => hm ?_) hcn
        exact Expr.mentions_subset_of_child (by simp [Expr.children]) hw
    | _ => cases hn

/-- A substitution makes a formula on a path out of a checked expression, if all names that it
leaves behind are tolerated. It is used for statements of the function and for contracts of
callees alike. -/
theorem Types.of_substUnder {σ : String → Option Expr} {c : Expr} {t : Ty} (hc : p.check c = .ok t)
    (hl : ∀ v ∈ c.mentions, v.ty.isArray → v.length?.isSome)
    (hσ : ∀ v ∈ c.exposed [], ∀ r, σ v.name = some r → f.Types p r v.ty)
    (hn : ∀ v ∈ c.exposed [], σ v.name = none → f.Tolerates v) :
    f.Types p (c.substUnder σ []) t where
  check := Program.check_substUnder hc fun v hv r hr => (hσ v hv r hr).check
  lengths v hv := by
    rcases Expr.mem_mentions_substUnder hv with hv | ⟨u, hu, r, hr, hvr⟩
    · exact hl v hv
    · exact (hσ u hu r hr).lengths v hvr
  tolerates v hv := by
    rcases Expr.mem_exposed_substUnder hv with ⟨hvc, hnone⟩ | ⟨u, hu, r, hr, hvr⟩
    · exact hn v hvc hnone
    · exact (hσ u hu r hr).tolerates v hvr

/-- A replacement has the type of a variable of the replaced name. The name may be that of a
length, which is replaced along with its array. -/
theorem types_of_replacement {pairs : List (Variable × Expr)}
    (hp : ∀ q ∈ pairs, f.Replaces p q.1 q.2) {x : String} {r : Expr}
    (hr : replacement pairs x = some r) :
    ∃ q ∈ pairs, ∃ w ∈ q.1.withLength, w.name = x ∧ f.Types p r w.ty := by
  obtain ⟨q, hq, hqr⟩ := exists_of_replacement hr
  rcases Variable.replaces_eq_some hqr with ⟨hx, rfl⟩ | ⟨l, hl, hx, hn⟩
  · exact ⟨q, hq, q.1, q.1.self_mem_withLength, hx.symm, (hp q hq).types⟩
  · refine ⟨q, hq, l, by simp [hl], hx.symm, ?_⟩
    rw [Variable.ty_of_length? hl]
    exact (hp q hq).length r hn

/-- Assignments of the function may be made in a formula on one of its paths. What is exposed
tolerates them, which is why it is part of the invariant. -/
theorem Types.replacement {φ : Expr} {t : Ty} (hφ : f.Types p φ t)
    {pairs : List (Variable × Expr)} (hp : ∀ q ∈ pairs, f.Replaces p q.1 q.2)
    (ht : ∀ q ∈ pairs, q.1 ∈ f.targets) :
    f.Types p (φ.substUnder (replacement pairs) []) t := by
  refine .of_substUnder hφ.check hφ.lengths (fun v hv r hr => ?_) fun v hv _ => hφ.tolerates v hv
  obtain ⟨q, hq, w, hw, hwv, htypes⟩ := types_of_replacement hp hr
  rwa [← hφ.tolerates v hv w (List.mem_flatMap.2 ⟨q.1, ht q hq, hw⟩) hwv]

theorem Types.connect {op : BinOp} {l r : Expr} (hop : op.isConnective) (hl : f.Types p l .bool)
    (hr : f.Types p r .bool) : f.Types p (.binary op l r) .bool where
  check := Program.check_binary_iff.2 ⟨.bool, hl.check, hr.check, by cases op <;> cases hop <;> rfl,
    by cases op <;> cases hop <;> rfl⟩
  lengths v hv := by
    rw [Expr.mentions_eq] at hv
    simp only [Expr.rootMentions, Expr.children, List.nil_append, List.flatMap_cons,
      List.flatMap_nil, List.append_nil, List.mem_append] at hv
    exact hv.elim (hl.lengths v) (hr.lengths v)
  tolerates v hv := by
    rw [Expr.exposed, List.mem_append] at hv
    exact hv.elim (hl.tolerates v) (hr.tolerates v)

/-- A variable with a name for fresh variables is assigned nowhere. -/
theorem Types.of_reserved {u : Variable} (hr : ∀ w ∈ f.assigned, ¬ Reserved w.name)
    (hu : Reserved u.name) (hl : ∀ w ∈ u.withLength, w.ty.isArray → w.length?.isSome) :
    f.Types p (.var u) u.ty where
  check := rfl
  lengths v hv := hl v (by rwa [Expr.mentions_var] at hv)
  tolerates v hv w hw hn := by
    -- the only exposed variable is the variable itself
    have hvu : v = u := by simpa [Expr.exposed] using hv
    exact absurd (hn ▸ hvu ▸ hu) (hr w hw)

/-- A fresh variable may take the place of every variable of its type. Its name is assigned
nowhere in the function, so it is tolerated. -/
theorem Replaces.of_fresh {v t : Variable} (hr : ∀ w ∈ f.assigned, ¬ Reserved w.name)
    (ht : t.isArray = t.ty.isArray) (hvt : v.ty = t.ty) (k : Nat) :
    f.Replaces p v (.var (t.fresh k)) := by
  have hreserved : ∀ w ∈ (t.fresh k).withLength, Reserved w.name := fun w hw =>
    Variable.reserved_of_mem_withLength_fresh hw
  have hlengths : ∀ w ∈ (t.fresh k).withLength, w.ty.isArray → w.length?.isSome := by
    intro w hw ha
    rcases Variable.mem_withLength.1 hw with rfl | hl
    · rwa [Variable.isSome_length?_fresh ht, ← Variable.ty_fresh t k]
    · rw [Variable.ty_of_length? hl] at ha
      cases ha
  refine ⟨?_, fun n hn => ?_⟩
  · have htypes := Types.of_reserved (p := p) hr
      (hreserved _ (t.fresh k).self_mem_withLength) hlengths
    rwa [Variable.ty_fresh, ← hvt] at htypes
  · obtain ⟨l, hl, rfl⟩ := Option.map_eq_some_iff.1 hn
    have hmem : l ∈ (t.fresh k).withLength := by simp [hl]
    rw [← Variable.ty_of_length? hl]
    exact .of_reserved hr (hreserved l hmem) fun w hw =>
      hlengths w (Variable.withLength_subset hmem hw)

theorem Replaces.freshAll {vs ts : List Variable} (hr : ∀ w ∈ f.assigned, ¬ Reserved w.name)
    (h : ∀ q ∈ vs.zip ts, q.1.ty = q.2.ty ∧ q.2.isArray = q.2.ty.isArray) (k : Nat) :
    ∀ q ∈ vs.zip ((Variable.freshAll k ts).map Expr.var), f.Replaces p q.1 q.2 := by
  induction ts generalizing vs k with
  | nil => simp [Variable.freshAll]
  | cons t ts ih =>
      cases vs with
      | nil => simp
      | cons v vs =>
          obtain ⟨⟨hty, ht⟩, hrest⟩ := List.forall_mem_cons.1 h
          exact List.forall_mem_cons.2 ⟨.of_fresh hr ht hty (k + 1), ih hrest (k + 1)⟩

end Function

/-! ## Names from elsewhere

What is required of callees, and that their contracts can be used in a formula of the caller.
Parameters and results are all replaced, so the requirement is about other names. -/

/-- The names that come into the formulas of a path from elsewhere keep their types there. This is
about the text of the program, and can be decided. -/
structure Program.Compatible (p : Program) : Prop where
  /-- What the precondition of a callee mentions besides the parameters is tolerated. -/
  preconditions : ∀ f ∈ p.functions, ∀ g ∈ f.callees p, ∀ c ∈ g.precondition?,
    ∀ v ∈ c.exposed [], v.name ∉ g.parameterNames → f.Tolerates v
  /-- What the postcondition of a callee mentions besides parameters and results is
  tolerated. -/
  postconditions : ∀ f ∈ p.functions, ∀ g ∈ f.callees p, ∀ c ∈ g.postcondition?,
    ∀ v ∈ c.exposed [], v.name ∉ g.parameterNames ++ g.resultNames → f.Tolerates v
  /-- No assigned variable has a name for fresh variables. -/
  fresh : ∀ f ∈ p.functions, ∀ v ∈ f.assigned, ¬ Reserved v.name

instance (p : Program) : Decidable p.Compatible :=
  decidable_of_iff
    ((∀ f ∈ p.functions, ∀ g ∈ f.callees p, ∀ c ∈ g.precondition?, ∀ v ∈ c.exposed [],
        v.name ∉ g.parameterNames → f.Tolerates v) ∧
      (∀ f ∈ p.functions, ∀ g ∈ f.callees p, ∀ c ∈ g.postcondition?, ∀ v ∈ c.exposed [],
        v.name ∉ g.parameterNames ++ g.resultNames → f.Tolerates v) ∧
      ∀ f ∈ p.functions, ∀ v ∈ f.assigned, ¬ Reserved v.name)
    ⟨fun ⟨h₁, h₂, h₃⟩ => ⟨h₁, h₂, h₃⟩, fun ⟨h₁, h₂, h₃⟩ => ⟨h₁, h₂, h₃⟩⟩

namespace Function

variable {p : Program} {f g : Function}

/-- The formula at a block is checked, whichever kind of block it is. -/
theorem Checked.check_annotated (hc : f.Checked p) {i : BlockId} {b : Block}
    (hb : f.block? i = some b) {c : Expr} (h : b.kind.annotation? = some c) :
    p.check c = .ok .bool := by
  refine (validateKind_eq_ok_iff.1 (hc.kind hb)).2.2 (c, .bool) ?_
  cases hk : b.kind with
  | precondition condition ranking =>
      rw [hk] at h
      cases h
      exact List.mem_cons_self
  | postcondition condition =>
      rw [hk] at h
      cases h
      exact List.mem_cons_self
  | basic =>
      rw [hk] at h
      cases h
  | loopHead invariant ranking =>
      rw [hk] at h
      cases h
      exact List.mem_cons_self

/-- The expressions of a validated function have types. Those of ranking functions are not among
them. -/
theorem Checked.check_of_mem_exprs (hc : f.Checked p) {e : Expr} (he : e ∈ f.exprs) :
    ∃ t, p.check e = .ok t := by
  obtain ⟨b, hb, he⟩ := List.mem_flatMap.1 he
  obtain ⟨i, hb⟩ := List.mem_iff_getElem?.1 hb
  rcases List.mem_append.1 he with he | he
  · exact ⟨_, hc.check_annotated hb (Option.mem_toList.1 he)⟩
  · obtain ⟨a, ha, he⟩ := List.mem_flatMap.1 he
    have hstat := hc.statement hb ha
    cases hs : a.action with
    | assign v d =>
        simp only [hs, Action.exprs, List.mem_singleton] at he
        exact ⟨_, he ▸ Program.validate_assign hstat hs⟩
    | store v k d =>
        simp only [hs, Action.exprs, List.mem_cons, List.not_mem_nil, or_false] at he
        obtain ⟨-, elem, -, hk, hd⟩ := Program.validate_store hstat hs
        rcases he with rfl | rfl
        · exact ⟨_, hk⟩
        · exact ⟨_, hd⟩
    | call targets id args =>
        rw [hs] at he
        obtain ⟨g, -, hlen, -, hargs, -⟩ := Program.validate_call hstat hs
        -- validation has checked the arguments in pairs with the parameters
        have hzip : (g.parameters.zip args).map Prod.snd = args :=
          List.map_snd_zip (Nat.le_of_eq hlen.symm)
        rw [Action.exprs, ← hzip] at he
        obtain ⟨q, hq, rfl⟩ := List.mem_map.1 he
        exact ⟨_, hargs q hq⟩
    | assert c =>
        simp only [hs, Action.exprs, List.mem_singleton] at he
        exact ⟨_, he ▸ Program.validate_assert hstat hs⟩
    | assume c =>
        simp only [hs, Action.exprs, List.mem_singleton] at he
        exact ⟨_, he ▸ Program.validate_assume hstat hs⟩

section Calls

variable {targets : List Variable} {args : List Expr} (hu : ∀ g ∈ p.functions, Uniform g.mentions)
  (hp : p.Compatible) (hf : f ∈ p.functions) (hs : f.CallSite p g targets args)
  (hg : g ∈ f.callees p) (hargs : ∀ q ∈ g.parameters.zip args, p.check q.2 = .ok q.1.ty)

include hu hs in
/-- The contract of a callee becomes a formula on a path of the caller where variables of the
callee are replaced. -/
theorem CallSite.types_contract {pairs : List (Variable × Expr)} {c : Expr}
    (hc : p.check c = .ok .bool) (hm : c.mentions ⊆ g.mentions)
    (hq : ∀ q ∈ pairs, q.1 ∈ g.parameters ++ g.results)
    (hr : ∀ q ∈ pairs, f.Replaces p q.1 q.2)
    (hn : ∀ v ∈ c.exposed [], replacement pairs v.name = none → f.Tolerates v) :
    f.Types p (c.substUnder (replacement pairs) []) .bool := by
  have hug := hu g hs.mem
  refine .of_substUnder hc (fun v hv ha => ?_) (fun v hv r hvr => ?_) hn
  · rwa [← Variable.isArray_iff_length?, hug.kinds v (hm hv)]
  · obtain ⟨q, hqp, w, hw, hwv, htypes⟩ := types_of_replacement hr hvr
    have hwg : w ∈ g.mentions :=
      mem_mentions (stateVariables_of_mem (List.mem_append_left _ (hq q hqp)) hw)
    rwa [← hug.ty w hwg v (hm (Expr.mem_mentions_of_exposed hv)) hwv]

include hu hf hs hargs in
theorem CallSite.replaces_args : ∀ q ∈ g.parameters.zip args, f.Replaces p q.1 q.2 := fun q hq =>
  .of_mentions (hu f hf) (mentions_subset (hs.args_mem q.2 (List.of_mem_zip hq).2)) (hargs q hq)

include hu hp hf hs hg hargs in
/-- The precondition of a callee with the arguments in it. -/
theorem CallSite.types_precondition (hcg : g.Checked p) {c : Expr}
    (hpre : g.precondition? = some c) :
    f.Types p (c.substUnder (replacement (g.parameters.zip args)) []) .bool := by
  obtain ⟨i, b, hb, hk⟩ := annotation_of_precondition? hpre
  refine hs.types_contract hu (hcg.check_annotated hb hk)
    (mentions_subset (Function.mem_exprs_of_annotation hb hk))
    (fun q hq => List.mem_append_left _ (List.of_mem_zip hq).1) (hs.replaces_args hu hf hargs)
    fun v hv hnone => hp.preconditions f hf g hg c hpre v hv fun hmem => ?_
  obtain ⟨q, hq, w, hw, hwv⟩ := exists_zip_of_name (Nat.le_of_eq hs.args_length) hmem
  have hsome := isSome_replacement hq (hs.args_fit q hq) hw
  rw [hwv, hnone] at hsome
  cases hsome

include hu hp hf hs hg hargs in
/-- The postcondition of a callee with arguments and fresh variables in it. Parameters and results
are all replaced, and other names have to be compatible. -/
theorem CallSite.types_postcondition (hcg : g.Checked p) {c : Expr}
    (hpost : g.postcondition? = some c) (k : Nat) :
    f.Types p (c.substUnder (replacement (g.parameters.zip args ++
      g.results.zip ((Variable.freshAll k targets).map Expr.var))) []) .bool := by
  have hkinds : p.ArrayKinds := fun g hg => (hu g hg).kinds
  have hfresh : ∀ q ∈ g.results.zip ((Variable.freshAll k targets).map Expr.var),
      f.Replaces p q.1 q.2 := by
    refine Replaces.freshAll (hp.fresh f hf) (fun q hq => ?_) k
    obtain ⟨hty, -, ht⟩ := hs.kinds hf hkinds hq
    exact ⟨hty, ht⟩
  obtain ⟨i, b, hb, hk⟩ := annotation_of_postcondition? hpost
  refine hs.types_contract hu (hcg.check_annotated hb hk)
    (mentions_subset (Function.mem_exprs_of_annotation hb hk)) ?_ ?_
    fun v hv hnone => hp.postconditions f hf g hg c hpost v hv fun hmem => ?_
  · intro q hq
    rcases List.mem_append.1 hq with hq | hq
    · exact List.mem_append_left _ (List.of_mem_zip hq).1
    · exact List.mem_append_right _ (List.of_mem_zip hq).1
  · exact List.forall_mem_append.2 ⟨hs.replaces_args hu hf hargs, hfresh⟩
  · -- parameters and results are all replaced
    rw [replacement_append, Option.or_eq_none_iff] at hnone
    rcases List.mem_append.1 hmem with hmem | hmem
    · obtain ⟨q, hq, w, hw, hwv⟩ := exists_zip_of_name (Nat.le_of_eq hs.args_length) hmem
      have hsome := isSome_replacement hq (hs.args_fit q hq) hw
      rw [hwv, hnone.2] at hsome
      cases hsome
    · have hlen : g.results.length ≤ ((Variable.freshAll k targets).map Expr.var).length := by
        rw [List.length_map, Variable.length_freshAll, hs.targets_length]
      obtain ⟨q, hq, w, hw, hwv⟩ := exists_zip_of_name hlen hmem
      have hsome := isSome_replacement hq
        (Variable.fits_freshAll (fun q hq => hs.kinds hf hkinds hq) k q hq) hw
      rw [hwv, hnone.1] at hsome
      cases hsome

include hu hp hf hs in
/-- What follows a call, with fresh variables in place of the targets, which are assigned by the
function. -/
theorem CallSite.types_havoc {φ : Expr} (hφ : f.Types p φ .bool) (k : Nat) :
    f.Types p (φ.substUnder (replacement
      (targets.zip ((Variable.freshAll k targets).map Expr.var))) []) .bool := by
  refine hφ.replacement (Replaces.freshAll (hp.fresh f hf) (fun q hq => ?_) k) fun q hq =>
    hs.targets_mem q.1 (List.of_mem_zip hq).1
  rw [List.zip, List.zipWith_self] at hq
  obtain ⟨t, ht, rfl⟩ := List.mem_map.1 hq
  exact ⟨rfl, (hu f hf).kinds t (mem_mentions (stateVariables_of_targets (hs.targets_mem t ht)))⟩

end Calls

end Function

/-! ## Conditions

The step lemma for one statement, the run lemma for the statements of a path, and the formulas at
both ends of the path. -/

namespace Program

variable {p : Program} {f : Function} (hval : p.validate = .ok ())
  (hu : ∀ g ∈ p.functions, Uniform g.mentions) (hp : p.Compatible) (hf : f ∈ p.functions)

include hval hu hp hf in
/-- A statement of the function turns a formula on a path into another one. -/
theorem types_foldStatement {a : Statement} (ha : f.Contains a) {r : Running}
    (hr : f.Types p r.formula .bool) :
    ∃ r', p.foldStatement f a r = .ok r' ∧ f.Types p r'.formula .bool := by
  obtain ⟨i, b, hb, ha⟩ := ha
  have hc := Function.checked_of_validate hval hf
  have hkinds : p.ArrayKinds := fun g hg => (hu g hg).kinds
  have hstat := hc.statement hb ha
  have hexpr : ∀ {e}, e ∈ a.action.exprs → e.mentions ⊆ f.mentions := fun he =>
    Function.mentions_subset (Function.mem_exprs_of_action hb ha he)
  have htarget : ∀ {v}, v ∈ a.action.targets → v ∈ f.targets :=
    Function.mem_targets_of_action hb ha
  cases hs : a.action with
  | assign v e =>
      rw [hs] at hexpr htarget
      refine ⟨_, foldStatement_assign hs (fits_of_assign hf hc hb ha hkinds hs) r, ?_⟩
      refine hr.replacement ?_ ?_
      · simpa using Function.Replaces.of_mentions (hu f hf) (hexpr (by simp [Action.exprs]))
          (validate_assign hstat hs)
      · simpa using htarget (by simp [Action.targets])
  | store v k e =>
      rw [hs] at hexpr htarget
      obtain ⟨l, hl, hfold⟩ := foldStatement_store hc hb ha hs r
      obtain ⟨-, elem, helem, hk, he⟩ := validate_store hstat hs
      have hv : v ∈ f.targets := htarget (by simp [Action.targets])
      have hvm : v.withLength ⊆ f.mentions := fun w hw =>
        Function.mem_mentions_of_assigned (List.mem_flatMap.2 ⟨v, hv, hw⟩)
      -- a store assigns an updated array, which is an expression over variables of the function
      have hupdate : f.Types p (.update (.var v) k e (.var l)) v.ty := by
        refine .of_mentions (hu f hf) ?_ ?_
        · simp only [Expr.mentions_eq (.update _ _ _ _), Expr.rootMentions, Expr.children,
            List.nil_append, List.flatMap_cons, List.flatMap_nil, List.append_nil,
            Expr.mentions_var, List.append_subset]
          exact ⟨hvm, hexpr (by simp [Action.exprs]), hexpr (by simp [Action.exprs]),
            fun w hw => hvm (Variable.withLength_subset (by simp [hl]) hw)⟩
        · cases hv : v.ty with
          | array s =>
              rw [hv] at helem
              cases helem
              exact check_update_iff.2 ⟨s, by rw [check, hv], hk,
                by rw [check, Variable.ty_of_length? hl], he, rfl⟩
          | _ =>
              rw [hv] at helem
              cases helem
      refine ⟨_, hfold, .of_substUnder hr.check hr.lengths (fun w hw x hx => ?_) fun w hw _ =>
        hr.tolerates w hw⟩
      split at hx
      · next hwv =>
          cases hx
          rw [← hr.tolerates w hw v (List.mem_flatMap.2 ⟨v, hv, v.self_mem_withLength⟩) hwv.symm]
          exact hupdate
      · cases hx
  | call targets id args =>
      obtain ⟨g, hg, hsite⟩ := Function.callSite_of_action hkinds hf hc hb ha hs
      obtain ⟨g', hg', -, -, hargs, -⟩ := validate_call hstat hs
      cases hg.symm.trans hg'
      have hcg := Function.checked_of_validate hval hsite.mem
      obtain ⟨post, hpost⟩ := hcg.exists_postcondition?
      refine ⟨_, by rw [foldStatement, hs]; exact hsite.foldCall_ok hf hkinds hg hpost r, ?_⟩
      exact .connect rfl
        (hsite.types_postcondition hu hp hf (Function.mem_callees hb ha hs hg) hargs hcg hpost _)
        (hsite.types_havoc hu hp hf hr _)
  | assert c =>
      rw [hs] at hexpr
      exact ⟨_, by rw [foldStatement, hs], .connect rfl (.of_mentions (hu f hf)
        (hexpr (by simp [Action.exprs])) (validate_assert hstat hs)) hr⟩
  | assume c =>
      rw [hs] at hexpr
      exact ⟨_, by rw [foldStatement, hs], .connect rfl (.of_mentions (hu f hf)
        (hexpr (by simp [Action.exprs])) (validate_assume hstat hs)) hr⟩

include hval hu hp hf in
theorem types_foldStatements {statements : List Statement}
    (hs : ∀ a ∈ statements, f.Contains a) {r : Running} (hr : f.Types p r.formula .bool) :
    ∃ r', p.foldStatements f statements r = .ok r' ∧ f.Types p r'.formula .bool := by
  induction statements with
  | nil => exact ⟨r, rfl, hr⟩
  | cons a rest ih =>
      obtain ⟨ha, hrest⟩ := List.forall_mem_cons.1 hs
      obtain ⟨r₁, hr₁, htypes⟩ := ih hrest
      obtain ⟨r₂, hr₂, htypes₂⟩ := types_foldStatement hval hu hp hf ha htypes
      refine ⟨r₂, ?_, htypes₂⟩
      rw [foldStatements, hr₁]
      exact hr₂

include hval hu hp hf in
/-- The obligation of a path is a well-typed formula. It is an annotation or an assertion of the
function, or the precondition of a callee with the arguments in it. -/
theorem IsBasicPath.types_obligation {q : BasicPath} (hq : p.IsBasicPath f q) :
    f.Types p q.obligation .bool := by
  have hc := Function.checked_of_validate hval hf
  have htext : ∀ {i b c}, f.block? i = some b → b.kind.annotation? = some c →
      f.Types p c .bool := fun hb hk =>
    .of_mem (hu f hf) (Function.mem_exprs_of_annotation hb hk) (hc.check_annotated hb hk)
  cases hq with
  | exit _ _ hb hk => exact htext hb (by rw [hk]; rfl)
  | head _ _ hb hk => exact htext hb (by rw [hk]; rfl)
  | @inside _ _ _ b front back a obligation kind hw hs hd =>
      obtain ⟨i, hb⟩ := hw.exists_block
      have ha : a ∈ b.statements := by simp [hs]
      have hstat := hc.statement hb ha
      cases hd with
      | assertion ha' =>
          refine .of_mem (hu f hf) (Function.mem_exprs_of_action hb ha ?_)
            (validate_assert hstat ha')
          simp [ha', Action.exprs]
      | precondition ha' hg hpre _ =>
          have hkinds : p.ArrayKinds := fun g hg => (hu g hg).kinds
          obtain ⟨g, hg', hsite⟩ := Function.callSite_of_action hkinds hf hc hb ha ha'
          obtain ⟨g'', hg'', -, -, hargs, -⟩ := validate_call hstat ha'
          cases hg.symm.trans hg'
          cases hg.symm.trans hg''
          exact hsite.types_precondition hu hp hf (Function.mem_callees hb ha ha' hg) hargs
            (Function.checked_of_validate hval hsite.mem) hpre

include hval hu hp hf in
theorem types_condition {q : BasicPath} (hq : q ∈ (f.paths p).toList) :
    ∃ vc, p.condition f q = .ok vc ∧ f.Types p vc .bool := by
  have hc := Function.checked_of_validate hval hf
  obtain ⟨m, hm, hfinds⟩ := Function.exists_finds hq
  have hbasic := Function.isBasicPath_of_finds hc hm hfinds
  obtain ⟨r, hr, htypes⟩ := types_foldStatements hval hu hp hf hbasic.contains
    (r := ⟨q.obligation, 0⟩) (hbasic.types_obligation hval hu hp hf)
  obtain ⟨i, b, hb, hk⟩ := hbasic.exists_annotated
  have hknown : f.Types p q.known .bool :=
    .of_mem (hu f hf) (Function.mem_exprs_of_annotation hb hk) (hc.check_annotated hb hk)
  exact ⟨_, bind_eq_ok_iff.2 ⟨r, hr, rfl⟩, .connect rfl hknown htypes⟩

end Program

/-- The array arguments of predicates in a formula on a path have lengths. A typed array is a
variable or an update, and an update carries its length. -/
theorem Function.Types.length_of_app {p : Program} {f : Function} {e : Expr} {t : Ty}
    (h : f.Types p e t) {name : String} {args : List Expr} (happ : .app name args ∈ e.visit)
    {a : Expr} (ha : a ∈ args) (harr : a.ty.isArray) : a.arrayLength?.isSome := by
  obtain ⟨u, hu⟩ := Program.check_of_mem_visit h.check happ
  obtain ⟨w, hw⟩ := Program.check_of_child hu ha
  rw [Program.ty_of_check hw] at harr
  rcases Program.array_of_check hw harr with ⟨v, rfl⟩ | ⟨b, i, x, n, rfl⟩
  · have hv : v ∈ e.mentions := by
      refine Expr.mentions_subset_of_mem_visit happ (Expr.mentions_subset_of_child ha ?_)
      rw [Expr.mentions_var]
      exact v.self_mem_withLength
    rw [Expr.arrayLength?, Option.isSome_map]
    exact h.lengths v hv (by rwa [← Except.ok.inj hw] at harr)
  · rfl

/-- Every path that the search finds has a condition, which is a well-typed formula in which
all array arguments of predicates have lengths. -/
theorem conditions_well_typed {p : Program} {f : Function} {q : BasicPath}
    (hv : p.validate = .ok ()) (hu : ∀ g ∈ p.functions, Uniform g.mentions) (hp : p.Compatible)
    (hf : f ∈ p.functions) (hq : q ∈ (f.paths p).toList) :
    ∃ vc, p.condition f q = .ok vc ∧ p.check vc = .ok .bool ∧
      ∀ name args, .app name args ∈ vc.visit → ∀ a ∈ args, a.ty.isArray →
        a.arrayLength?.isSome := by
  obtain ⟨vc, hvc, htypes⟩ := Program.types_condition hv hu hp hf hq
  exact ⟨vc, hvc, htypes.check, fun _ _ happ _ ha harr => htypes.length_of_app happ ha harr⟩

/-- The array that `caller` passes on is an argument of the predicate in its condition. -/
theorem conditions_well_typed_passing :
    ∃ q vc, Lengths.passing.validate = .ok () ∧
      (∀ g ∈ Lengths.passing.functions, Uniform g.mentions) ∧ Lengths.passing.Compatible ∧
      Lengths.caller ∈ Lengths.passing.functions ∧
      q ∈ (Lengths.caller.paths Lengths.passing).toList ∧
      Lengths.passing.condition Lengths.caller q = .ok vc ∧
      Lengths.passing.check vc = .ok .bool ∧
      .app "regular" [.var Lengths.c] ∈ vc.visit ∧ (Expr.var Lengths.c).ty.isArray ∧
      (Expr.var Lengths.c).arrayLength?.isSome := by
  have hv : Lengths.passing.validate = .ok () := by cbv
  have hu : ∀ g ∈ Lengths.passing.functions, Uniform g.mentions := by decide +kernel
  have hp : Lengths.passing.Compatible := by decide +kernel
  have hf : Lengths.caller ∈ Lengths.passing.functions := by simp [Lengths.passing]
  obtain ⟨q, hq, vc, hvc, happ⟩ : ∃ q ∈ (Lengths.caller.paths Lengths.passing).toList, ∃ vc,
      Lengths.passing.condition Lengths.caller q = .ok vc ∧
        .app "regular" [.var Lengths.c] ∈ vc.visit :=
    ⟨_, by cbv; exact .head _, _, by cbv, by simp [Expr.visit, Expr.visitList, Lengths.c]⟩
  obtain ⟨vc', hvc', hcheck, hlengths⟩ := conditions_well_typed hv hu hp hf hq
  cases hvc.symm.trans hvc'
  exact ⟨q, vc, hv, hu, hp, hf, hq, hvc, hcheck, happ, rfl,
    hlengths _ _ happ _ (List.mem_singleton.2 rfl) rfl⟩

/-! ## Names that clash

Both ways in which a condition can be ill-typed. A local of the callee is assigned by the caller
as another variable, or a name of fresh variables is used in the program. -/

namespace Clashing

open Sample (r y)

def flag : Variable := .scalar "flag" .bool
def number : Variable := .scalar "flag" .int
def post : Variable := .scalar "y$post1" .bool

/-- The body `flag := true; r := 0`, where the postcondition mentions the local `flag`. -/
def probe : Function := ⟨"probe", 0, [], [r], 0, 1, [
  ⟨0, .precondition (.bool true) [], [], [2], []⟩,
  ⟨1, .postcondition (.and (.var flag) (.binary .eq (.var r) (.int 0))), [2], [], []⟩,
  ⟨2, .basic, [0], [1], [⟨0, .assign flag (.bool true)⟩, ⟨1, .assign r (.int 0)⟩]⟩]⟩

/-- The body `flag := 0; y := probe()`, where `flag` is an integer. -/
def shadow : Function := ⟨"shadow", 0, [], [y], 0, 1, [
  ⟨0, .precondition (.bool true) [], [], [2], []⟩,
  ⟨1, .postcondition (.bool true), [2], [], []⟩,
  ⟨2, .basic, [0], [1], [⟨2, .assign number (.int 0)⟩, ⟨3, .call [y] 0 []⟩]⟩]⟩

/-- The body `y$post1 := true; y := probe()`. -/
def reuse : Function := ⟨"reuse", 0, [], [y], 0, 1, [
  ⟨0, .precondition (.bool true) [], [], [2], []⟩,
  ⟨1, .postcondition (.binary .eq (.var y) (.int 0)), [2], [], []⟩,
  ⟨2, .basic, [0], [1], [⟨4, .assign post (.bool true)⟩, ⟨5, .call [y] 0 []⟩]⟩]⟩

/-- A callee and two callers that assign names of its contract at other types. -/
def program : Program where
  types := .ofList [⟨[], [.int]⟩]
  functions := [probe, shadow, reuse]
  predicates := []

end Clashing

/-- The names of each function are unique in it, and yet there are conditions that are no
formulas: a caller assigns a local of its callee, or a fresh variable, at another type. -/
theorem conditions_ill_typed :
    Clashing.program.validate = .ok () ∧ Clashing.program.Disciplined ∧
      ∀ f ∈ [Clashing.shadow, Clashing.reuse], f ∈ Clashing.program.functions ∧
        ∃ q ∈ (f.paths Clashing.program).toList, ∃ vc,
          Clashing.program.condition f q = .ok vc ∧
            ¬ Clashing.program.check vc = .ok .bool := by
  refine ⟨by cbv, by decide +kernel,
    List.forall_mem_cons.2 ⟨?_, List.forall_mem_singleton.2 ?_⟩⟩
  · -- the condition says that the integer zero implies something
    refine ⟨by simp [Clashing.program], _, by cbv; exact .head _, _, by cbv, ?_⟩
    intro h
    cases h
  · -- the condition compares a truth value with zero
    refine ⟨by simp [Clashing.program], _, by cbv; exact .head _, _, by cbv, ?_⟩
    intro h
    cases h

end Pathwise
