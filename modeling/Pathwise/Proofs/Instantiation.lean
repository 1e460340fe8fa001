import Pathwise.Proofs.Conditions

/-!
# Pathwise.Proofs.Instantiation

Contracts at calls, where names are unique within each function only.

Nothing keeps a function from using the names that the quantifiers of another one bind
(`Program.Disciplined`). At a call the arguments go under the quantifiers of the callee's
contract, and no quantifier is renamed. As long as the quantifiers avoid the names that the
arguments depend on, the contract says in the caller what it says in the callee
(`Function.holds_of_receives`); otherwise a precondition that is false may become true, as that of
`Limiting.limit` does where the caller happens to have a variable `k`.

Where bound names are kept apart across the whole program, avoidance comes for free, and
conditions are right without a look at single calls. The condition here is per call: it compares
the quantifiers of one contract with the arguments of one call (`Expr.Avoids`), and can be
decided.

The state of the callee is given by what it has received (`State.Receives`), and not by the
assignments that put it there. The two are connected by `State.receives_assignAll`.
-/

namespace Pathwise

variable {M : Meaning}

/-- No quantifier of `c` binds a name that one of the expressions depends on, so that none of them
is captured wherever it is put into `c`. -/
def Expr.Avoids (c : Expr) (es : List Expr) : Prop := ∀ k ∈ c.binders, ∀ e ∈ es, k ∉ e.cellNames

instance (c : Expr) (es : List Expr) : Decidable (c.Avoids es) :=
  inferInstanceAs (Decidable (∀ k ∈ c.binders, ∀ e ∈ es, k ∉ e.cellNames))

instance (v : Variable) (e : Expr) : Decidable (v.Fits e) :=
  decidable_of_iff (v.ty = e.ty ∧ e.arrayLength?.isSome = v.length?.isSome ∧
      ∀ n ∈ e.arrayLength?, n.ty = .int)
    ⟨fun ⟨h₁, h₂, h₃⟩ => ⟨h₁, h₂, h₃⟩, fun ⟨h₁, h₂, h₃⟩ => ⟨h₁, h₂, h₃⟩⟩

instance (v u : Variable) : Decidable (v.Apart u) :=
  inferInstanceAs (Decidable (∀ w ∈ v.withLength, ∀ w' ∈ u.withLength, w.name ≠ w'.name))

/-- The state `t` has received what a call passes in the state `s`, as far as it matters to
the condition `c`. -/
structure State.Receives (t : State M) (pairs : List (Variable × Expr)) (s : State M) (c : Expr) :
    Prop where
  /-- Each variable, with its length, holds what the expression for it stands for. -/
  passed : ∀ q ∈ pairs, Expr.SameItem M q.2 s (.var q.1) t
  /-- Nothing else has changed. -/
  kept : ∀ v ∈ c.reads [], (∀ q ∈ pairs, ∀ w ∈ q.1.withLength, w.name ≠ v.name) →
    Expr.SameItem M (.var v) s (.var v) t

/-- Assignments to variables that do not overlap are received. -/
theorem State.receives_assignAll {pairs : List (Variable × Expr)} {c : Expr}
    (hfits : ∀ q ∈ pairs, q.1.Fits q.2)
    (hne : ∀ q ∈ pairs, ∀ l ∈ q.1.length?, q.1.name ≠ l.name)
    (hp : (pairs.map Prod.fst).Pairwise Variable.Apart)
    (hc : ∀ v ∈ c.reads [], ∃ q ∈ pairs, ∃ w ∈ q.1.withLength, w.name = v.name)
    (s base : State M) :
    (base.assignAll (pairs.map fun q => (q.1, q.2.item M s))).Receives pairs s c where
  passed q hq := by
    have hsuits : ∀ q' ∈ pairs.map fun q => (q.1, q.2.item M s), q'.2.Suits q'.1 :=
      List.forall_mem_map.2 fun q hq => (hfits q hq).suits s
    have hitem := item_assignAll hsuits (List.forall_mem_map.2 hne) (by rwa [List.map_map]) base _
      (List.mem_map_of_mem hq)
    exact ⟨(congrArg Item.datum hitem).symm, fun _ => (congrArg Item.length hitem).symm⟩
  kept v hv h := by
    obtain ⟨q, hq, w, hw, hn⟩ := hc v hv
    exact absurd hn (h q hq w hw)

namespace Function

variable {p : Program} {g : Function} {pairs : List (Variable × Expr)} {c : Expr}
  (hd : p.Disciplined) (hg : g ∈ p.functions) (hc : c ∈ g.exprs)
  (hp : ∀ q ∈ pairs, q.1 ∈ g.parameters ++ g.results ∧ q.1.Fits q.2)

include hp in
/-- Only names of the callee are replaced in its contract. -/
theorem exists_of_contract {x : String} {r : Expr} (hr : replacement pairs x = some r) :
    ∃ q ∈ pairs, q.1.replaces q.2 x = some r ∧
      ∀ w ∈ q.1.withLength, w ∈ g.stateVariables := by
  obtain ⟨q, hq, hrq⟩ := exists_of_replacement hr
  exact ⟨q, hq, hrq, fun w hw => stateVariables_of_mem (List.mem_append_left _ (hp q hq).1) hw⟩

include hd hg hc hp in
/-- What a variable of the contract becomes stands for what the callee has received. -/
theorem sameItem_replacement {s t : State M} (ht : t.Receives pairs s c) :
    ∀ v ∈ c.reads [],
      Expr.SameItem M ((replacement pairs v.name).getD (.var v)) s (.var v) t := by
  intro v hv
  have hmem := mem_mentions (stateVariables_of_reads hc hv v.self_mem_withLength)
  cases hr : replacement pairs v.name with
  | none =>
      refine ht.kept v hv fun q hq w hw hn => ?_
      have hsome := isSome_replacement hq (hp q hq).2 hw
      rw [hn, hr] at hsome
      cases hsome
  | some r =>
      obtain ⟨q, hq, hrq, htext⟩ := exists_of_contract hp hr
      rcases Variable.replaces_eq_some hrq with ⟨hx, rfl⟩ | ⟨l, hl, hx, hn⟩
      -- what is replaced is told apart by name, and names are unique in the callee
      · -- the variable is a parameter or a result
        have hvq := hd.unique g hg v hmem q.1 (mem_mentions (htext _ q.1.self_mem_withLength)) hx
        exact hvq ▸ ht.passed q hq
      · -- it is the length of one
        have hvl := hd.unique g hg v hmem l (mem_mentions (htext l (by simp [hl]))) hx
        have harray : (Expr.var q.1).ty.isArray := by
          rw [Expr.ty, ← kind_of_mem hd.kinds hg (List.mem_append_left _ (hp q hq).1),
            Variable.isArray_iff_length?, hl]
          rfl
        have hlength := (ht.passed q hq).length harray
        rw [Expr.lengthValue?_eq, hn, Expr.lengthValue?, hl, Option.map_some, Option.map_some]
          at hlength
        refine ⟨?_, fun ha => ?_⟩
        · rw [Option.getD_some, Expr.value, hvl]
          exact Option.some.inj hlength
        · rw [Expr.ty, hvl, Variable.ty_of_length? hl] at ha
          cases ha

include hd hg hc hp in
/-- A contract says of what a call passes the same in the caller's state as in a state of
the callee that has received it, if no name is captured. -/
theorem holds_of_receives (ha : c.Avoids (pairs.map Prod.snd)) {s t : State M}
    (ht : t.Receives pairs s c) :
    (Expr.substUnder (replacement pairs) [] c).Holds M s ↔ c.Holds M t := by
  have hbinder : ∀ k ∈ c.binders, ∀ w ∈ g.stateVariables, w.name ≠ k := fun k hk =>
    hd.binders g hg k (List.mem_flatMap.2 ⟨c, hc, hk⟩)
  refine (Expr.relates_of_not_mem (fun k hk => ?_) fun k hk v hv => ?_).holds
    (sameItem_replacement hd hg hc hp ht)
  · refine Option.eq_none_iff_forall_not_mem.2 fun r hr => ?_
    -- a bound name is not replaced: what is replaced is a variable of the text, or the length of
    -- one
    obtain ⟨q, -, hrq, htext⟩ := exists_of_contract hp hr
    rcases Variable.replaces_eq_some hrq with ⟨hx, -⟩ | ⟨l, hl, hx, -⟩
    · exact hbinder k hk q.1 (htext _ q.1.self_mem_withLength) hx.symm
    · exact hbinder k hk l (htext l (by simp [hl])) hx.symm
  · have hvar : k ∉ (Expr.var v).cellNames := by
      intro hmem
      obtain ⟨w, hw, hn⟩ := Expr.mem_cellNames_var.1 hmem
      exact hbinder k hk w (stateVariables_of_reads hc hv hw) hn
    refine ⟨hvar, ?_⟩
    cases hr : replacement pairs v.name with
    | none => exact hvar
    | some r =>
        obtain ⟨q, hq, hrq, -⟩ := exists_of_contract hp hr
        have hq' := ha k hk q.2 (List.mem_map_of_mem hq)
        rcases Variable.replaces_eq_some hrq with ⟨-, rfl⟩ | ⟨l, -, -, hn⟩
        · exact hq'
        · exact fun hmem => hq' (Expr.cellNames_of_arrayLength? hn hmem)

end Function

/-! ## Calls

Both conditions of a contract, at any call of a validated program. The precondition is the
obligation before the call; the postcondition is the premise of the formula that the fold makes
behind it. -/

/-- At every call of a validated program whose names are unique in each function, the
callee's precondition with the arguments in it, and its postcondition with fresh variables
for the results as well, are true in a state of the caller exactly if they are true in the
states of the callee that have received arguments and results, as long as their quantifiers
avoid the names that these depend on. -/
theorem contract_faithful_unless_captured {p : Program} {f : Function} {i : BlockId} {b : Block}
    {a : Statement} {targets : List Variable} {id : FunctionId} {args : List Expr}
    (hv : p.validate = .ok ()) (hd : p.Disciplined) (hf : f ∈ p.functions)
    (hb : f.block? i = some b) (ha : a ∈ b.statements) (hs : a.action = .call targets id args) :
    ∃ g pre post σ, p.function? id = some g ∧ g.precondition? = some pre ∧
      g.postcondition? = some post ∧ g.bind args = .ok σ ∧
      (∀ o kind, p.obligation? a = .ok (some (o, kind)) → o = pre.substAll σ) ∧
      (pre.Avoids args → ∀ (M : Meaning) (s t : State M),
        t.Receives (g.parameters.zip args) s pre →
        ((pre.substAll σ).Holds M s ↔ pre.Holds M t)) ∧
      ∀ r : Running, ∃ post' rest,
        p.foldCall targets id args r = .ok ⟨.implies post' rest, r.fresh + targets.length⟩ ∧
        (post.Avoids (args ++ (Variable.freshAll r.fresh targets).map .var) →
          ∀ (M : Meaning) (s t : State M),
            t.Receives (g.parameters.zip args ++
              g.results.zip ((Variable.freshAll r.fresh targets).map .var)) s post →
            (post'.Holds M s ↔ post.Holds M t)) := by
  obtain ⟨g, hg, hsite⟩ := Function.callSite_of_action hd.kinds hf
    (Function.checked_of_validate hv hf) hb ha hs
  obtain ⟨pre, hpre⟩ := (Function.checked_of_validate hv hsite.mem).exists_precondition?
  obtain ⟨post, hpost⟩ := (Function.checked_of_validate hv hsite.mem).exists_postcondition?
  obtain ⟨σ, hσ, hfind⟩ := hsite.bind_ok
  -- in both contracts the substitution is the replacement of a list of pairs, to which
  -- `holds_of_receives` applies
  have hsub : pre.substAll σ = .substUnder (replacement (g.parameters.zip args)) [] pre := by
    rw [Expr.substAll, hfind]
  have hargs : (g.parameters.zip args).map Prod.snd = args :=
    List.map_snd_zip (Nat.le_of_eq hsite.args_length.symm)
  have hpassed : ∀ q ∈ g.parameters.zip args,
      q.1 ∈ g.parameters ++ g.results ∧ q.1.Fits q.2 := fun q hq =>
    ⟨List.mem_append_left _ (List.of_mem_zip hq).1, hsite.args_fit q hq⟩
  refine ⟨g, pre, post, σ, hg, hpre, hpost, hσ, fun o kind ho => ?_, fun havoid M s t ht => ?_,
    fun r => ?_⟩
  · have hdemands := (Program.demands_iff ho o kind).2 rfl
    rw [hsub, (hdemands.of_call hs hg hpre).2.1]
  · rw [hsub]
    exact Function.holds_of_receives hd hsite.mem (Function.mem_exprs_of_precondition? hpre)
      hpassed (by rwa [hargs]) ht
  · refine ⟨_, _, hsite.foldCall_ok hf hd.kinds hg hpost r, fun havoid M s t ht => ?_⟩
    have hresults : (g.results.zip ((Variable.freshAll r.fresh targets).map Expr.var)).map
        Prod.snd = (Variable.freshAll r.fresh targets).map Expr.var := by
      refine List.map_snd_zip (Nat.le_of_eq ?_)
      rw [List.length_map, Variable.length_freshAll, hsite.targets_length]
    refine Function.holds_of_receives hd hsite.mem (Function.mem_exprs_of_postcondition? hpost)
      (fun q hq => ?_) (by rwa [List.map_append, hargs, hresults]) ht
    rcases List.mem_append.1 hq with hq | hq
    · exact hpassed q hq
    · exact ⟨List.mem_append_right _ (List.of_mem_zip hq).1,
        Variable.fits_freshAll (fun q hq => hsite.kinds hf hd.kinds hq) r.fresh q hq⟩

/-! ## An upper bound

A function with a quantifier in its contract, called once with an index that the quantifier leaves
alone and once with one that it captures. -/

namespace Limiting

open Sample (m n r x y)

def a : Variable := ⟨"a", .array .int, .array "n"⟩
def b : Variable := ⟨"b", .array .int, .array "m"⟩
def k : Variable := .scalar "k" .int

/-- No element of the array is greater than `bound`. -/
def atMost (q array length : Variable) (bound : Expr) : Expr :=
  .quant .all q (.implies
    (.and (.binary .le (.int 0) (.var q)) (.binary .lt (.var q) (.var length)))
    (.binary .le (.read (.var array) (.var q)) bound))

/-- The body `r := x`, for an upper bound `x` of the array. -/
def limit : Function := ⟨"limit", 0, [a, x], [r], 0, 1, [
  ⟨0, .precondition (atMost (.quantified "k") a n (.var x)) [], [], [2], []⟩,
  ⟨1, .postcondition (atMost (.quantified "k") a n (.var r)), [2], [], []⟩,
  ⟨2, .basic, [0], [1], [⟨0, .assign r (.var x)⟩]⟩]⟩

/-- The arguments of the call `limit(b, b[i])`. -/
def args (i : Variable) : List Expr := [.var b, .read (.var b) (.var i)]

/-- The body `y := limit(b, b[i])`. -/
def caller (i : Variable) : Function := ⟨"caller", 0, [b, i], [y], 0, 1, [
  ⟨0, .precondition (.bool true) [], [], [2], []⟩,
  ⟨1, .postcondition (atMost (.quantified "j") b m (.var y)), [2], [], []⟩,
  ⟨2, .basic, [0], [1], [⟨0, .call [y] 0 (args i)⟩]⟩]⟩

/-- The caller asks for the element at `i` to be an upper bound. -/
def program (i : Variable) : Program where
  types := .ofList [⟨[.array .int, .int], [.int]⟩]
  functions := [limit, caller i]

/-- The array `[0, 1]`. -/
def state : State Lengths.meaning :=
  (Lengths.state.set "b" (.array .int fun i => i)).set "m" (.int 2)

end Limiting

/-- The index `i` of the caller is not bound in the contract of `limit`. -/
theorem contract_faithful_unless_captured_limit :
    (Limiting.program Sample.i).validate = .ok () ∧ (Limiting.program Sample.i).Disciplined ∧
      ∃ pre post σ, Limiting.limit.precondition? = some pre ∧
        Limiting.limit.postcondition? = some post ∧
        Limiting.limit.bind (Limiting.args Sample.i) = .ok σ ∧
        (∀ (M : Meaning) (s base : State M), (pre.substAll σ).Holds M s ↔
          pre.Holds M (Limiting.limit.enter base
            ((Limiting.args Sample.i).map (Expr.item M s)))) ∧
        ∃ post' rest, (Limiting.program Sample.i).foldCall [Sample.y] 0
            (Limiting.args Sample.i) ⟨.bool true, 0⟩ = .ok ⟨.implies post' rest, 1⟩ ∧
          ∀ (M : Meaning) (s base : State M), post'.Holds M s ↔
            post.Holds M (Limiting.limit.leave base
              ((Limiting.args Sample.i).map (Expr.item M s))
              [(Expr.var (Sample.y.fresh 1)).item M s]) := by
  have hv : (Limiting.program Sample.i).validate = .ok () := by cbv
  have hd : (Limiting.program Sample.i).Disciplined := by decide +kernel
  obtain ⟨g, pre, post, σ, hg, hpre, hpost, hσ, -, hbefore, hafter⟩ :=
    contract_faithful_unless_captured (f := Limiting.caller Sample.i) (i := 2) hv hd
      (by simp [Limiting.program]) rfl (.head _) rfl
  cases hg
  cases hpre
  cases hpost
  obtain ⟨post', rest, hfold, hmeaning⟩ := hafter ⟨.bool true, 0⟩
  refine ⟨hv, hd, _, _, σ, rfl, rfl, hσ, fun M s base => ?_, post', rest, hfold,
    fun M s base => ?_⟩
  · rw [Function.enter_map]
    exact hbefore (by decide) M s _
      (State.receives_assignAll (by decide) (by decide) (by decide) (by decide) s base)
  · have hleave := Function.leave_map Limiting.limit (Limiting.args Sample.i)
      [.var (Sample.y.fresh 1)] s base
    rw [List.map_singleton] at hleave
    rw [hleave]
    exact hmeaning (by decide) M s _
      (State.receives_assignAll (by decide) (by decide) (by decide) (by decide) s base)

/-- With `k` as its index the caller may pass any element to `limit`: the quantifier of the
precondition captures the index, and each element is compared with itself. -/
theorem contract_captured :
    (Limiting.program Limiting.k).validate = .ok () ∧ (Limiting.program Limiting.k).Disciplined ∧
      ∃ b a pre σ, (Limiting.caller Limiting.k).block? 2 = some b ∧ a ∈ b.statements ∧
        a.action = .call [Sample.y] 0 (Limiting.args Limiting.k) ∧
        Limiting.limit.precondition? = some pre ∧
        Limiting.limit.bind (Limiting.args Limiting.k) = .ok σ ∧
        (∀ M, (pre.substAll σ).Valid M) ∧
        ∃ t : State Lengths.meaning,
          t.Receives (Limiting.limit.parameters.zip (Limiting.args Limiting.k)) Limiting.state pre ∧
          ¬ pre.Holds Lengths.meaning t := by
  refine ⟨by cbv, by decide +kernel, _, _, _, _, rfl, .head _, rfl, rfl, rfl, fun M s => ?_, _,
    State.receives_assignAll (by decide) (by decide) (by decide) (by decide) _ Limiting.state,
    fun h => ?_⟩
  · refine Expr.holds_all.2 fun n => Expr.holds_implies.2 fun _ => ?_
    exact Expr.holds_le_self rfl
  · -- the element at the index one is greater than the one at the index zero
    have hone := Expr.holds_implies.1 (Expr.holds_all.1 h 1) (Expr.holds_and.2 ⟨rfl, rfl⟩)
    cases hone

end Pathwise
