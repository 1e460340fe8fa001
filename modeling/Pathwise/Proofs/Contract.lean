import Pathwise.Proofs.Formulas

/-!
# Pathwise.Proofs.Contract

Contracts of callees as formulas of the caller.

At a call the arguments take the place of the parameters, and fresh variables the place of the
results. The formula that a contract becomes in this way says in the caller's state what the
contract says in a state of the callee (`Function.holds_contract`), whatever else that state
holds.

The two states have nothing in common, not even the variables that happen to have the same name.
What connects them is the list of what the call passes (`Function.Passes`): the contract reads
nothing but parameters and results, each of them gets an expression, and the value of that
expression in the one state is the value of the variable in the other.

The second half is about the results. `Variable.freshAll` numbers the fresh variables for the
targets of a call as the fold does, and `CallEffect.find?_bindResults` says what substitutions the
fold makes of them: in the contract fresh variables replace the results, and in the formula they
replace the targets. That they do not overlap (`Variable.pairwise_freshAll`) is why any values can
be put into all of them at once.
-/

namespace Pathwise

variable {M : Meaning}

/-! ## What fits a variable

Types and lengths agree wherever a value goes into a variable. For expressions this comes from the
type checker (`Variable.Fits.of_check`), for fresh variables from the way they are made, and for
values it is preserved by evaluation (`Variable.Fits.suits`). -/

/-- A checked expression fits a variable of its type. An array expression has a length if the
variables in it have, since lengths are taken from variables in the end. -/
theorem Variable.Fits.of_check {p : Program} {v : Variable} {e : Expr}
    (hc : p.check e = .ok v.ty) (hv : v.isArray = v.ty.isArray)
    (he : ∀ u ∈ e.reads [], u.isArray = u.ty.isArray) : v.Fits e where
  ty := (Program.ty_of_check hc).symm
  length := by
    rw [← isArray_iff_length?, hv]
    cases e with
    | var u =>
        have hu : u.ty = v.ty := Program.ty_of_check hc
        rw [Expr.arrayLength?, Option.isSome_map, ← isArray_iff_length?,
          he u (by simp [Expr.reads]), hu]
    | update a i x n =>
        obtain ⟨elem, -, -, -, -, ht⟩ := Program.check_update_iff.1 hc
        rw [ht]
        rfl
    | _ =>
        refine (Bool.eq_false_iff.2 fun ha => ?_).symm
        rcases Program.array_of_check hc ha with ⟨_, h⟩ | ⟨_, _, _, _, h⟩ <;> cases h
  lengthTy _ hn := Program.lengthTy_of_check hc hn

/-- The fresh variable for a target fits all variables of the target's type. It is used for the
target itself and for the result that the target receives. -/
theorem Variable.Fits.of_fresh {v t : Variable} (hv : v.isArray = v.ty.isArray)
    (ht : t.isArray = t.ty.isArray) (hvt : v.ty = t.ty) (k : Nat) : v.Fits (.var (t.fresh k)) where
  ty := by rw [Expr.ty, ty_fresh, hvt]
  length := by
    rw [Expr.arrayLength?, Option.isSome_map, isSome_length?_fresh ht, ← isArray_iff_length?, hv,
      hvt]
  lengthTy n hn := by
    obtain ⟨l, hl, rfl⟩ := Option.map_eq_some_iff.1 hn
    exact ty_of_length? hl

/-- The value of an expression that fits a variable may be put into it, and its length into the
length of the variable. -/
theorem Variable.Fits.suits {v : Variable} {e : Expr} (h : v.Fits e) (s : State M) :
    (e.item M s).Suits v where
  ty := by rw [Expr.item, Expr.ty_value, h.ty]
  length := by rw [Expr.item, Expr.lengthValue?_eq, Option.isSome_map, h.length]
  lengthTy n hn := by
    rw [Expr.item, Expr.lengthValue?_eq] at hn
    obtain ⟨r, hr, rfl⟩ := Option.map_eq_some_iff.1 hn
    rw [Expr.ty_value, h.lengthTy r hr]

/-- What suits a result suits the fresh variable for the target. -/
theorem Item.Suits.fresh {v t : Variable} {i : Item M} (hi : i.Suits v)
    (hv : v.isArray = v.ty.isArray) (ht : t.isArray = t.ty.isArray) (hvt : v.ty = t.ty) (k : Nat) :
    i.Suits (t.fresh k) where
  ty := by rw [hi.ty, hvt, Variable.ty_fresh]
  length := by
    rw [hi.length, Variable.isSome_length?_fresh ht, ← Variable.isArray_iff_length?, hv, hvt]
  lengthTy := hi.lengthTy

theorem Item.suits_of_mem_zip {vs : List Variable} {items : List (Item M)}
    (h : List.Forall₂ Item.Suits items vs) : ∀ q ∈ vs.zip items, q.2.Suits q.1 := by
  intro q hq
  exact (List.forall₂_iff_zip.1 h.flip).2 hq

/-- What was put into a variable is found there. The length is set after the array, so its name
must be another one. -/
theorem Item.Suits.item_assign {v : Variable} {i : Item M} (hi : i.Suits v)
    (hne : ∀ l, v.length? = some l → v.name ≠ l.name) (s : State M) :
    (Expr.var v).item M (s.assign v i) = i := by
  obtain ⟨d, n⟩ := i
  have hd : d.ty = v.ty := hi.ty
  have hn : n.isSome = v.length?.isSome := hi.length
  unfold Expr.item State.assign
  rw [Expr.value, Expr.lengthValue?]
  cases hl : v.length? with
  | none =>
      rw [hl, Option.isSome_none, Option.isSome_eq_false_iff, Option.isNone_iff_eq_none] at hn
      simp only [hn, Option.map_none, ← hd, State.read_set_self]
  | some l =>
      obtain ⟨m, rfl⟩ := Option.isSome_iff_exists.1 (hn.trans (by rw [hl]; rfl))
      have hm : m.ty = .int := hi.lengthTy m rfl
      simp only [Option.map_some]
      rw [State.read_set_of_ne _ _ _ (hne l hl), ← hd, State.read_set_self,
        Variable.ty_of_length? hl, ← hm, State.read_set_self]

/-- The two variables and their lengths have different names. -/
def Variable.Apart (v u : Variable) : Prop :=
  ∀ w ∈ v.withLength, ∀ w' ∈ u.withLength, w.name ≠ w'.name

/-- What was put into variables that do not overlap is found there. Items of later assignments do
not touch the cells of earlier ones. -/
theorem State.item_assignAll {items : List (Variable × Item M)} (hs : ∀ q ∈ items, q.2.Suits q.1)
    (hne : ∀ q ∈ items, ∀ l ∈ q.1.length?, q.1.name ≠ l.name)
    (hp : (items.map Prod.fst).Pairwise Variable.Apart) (s : State M) :
    ∀ q ∈ items, (Expr.var q.1).item M (s.assignAll items) = q.2 := by
  induction items generalizing s with
  | nil => exact List.forall_mem_nil _
  | cons q rest ih =>
      obtain ⟨hq, hrest⟩ := List.forall_mem_cons.1 hs
      obtain ⟨hneq, hner⟩ := List.forall_mem_cons.1 hne
      obtain ⟨hapart, hpr⟩ := List.pairwise_cons.1 hp
      refine List.forall_mem_cons.2 ⟨?_, ih hrest hner hpr _⟩
      -- the variables that come later have other names
      refine Eq.trans (Expr.item_congr fun v hv w hw => ?_) (hq.item_assign hneq s)
      have hvq : v = q.1 := by simpa [Expr.reads] using hv
      exact read_assignAll_of_ne (fun r hr => hapart r.1 (List.mem_map_of_mem hr) w (hvq ▸ hw)) _ _

/-! ## Contracts

The substitution lemma for a contract. The state of the callee is arbitrary up to what is passed,
and the proof says so: the rest of it is not read. -/

/-- A call in `f` passes the expression to the callee `g` for one of its variables. It may be an
argument, or a fresh variable for a result. -/
structure Function.Passes (p : Program) (f g : Function) (n : Nat) (v : Variable) (e : Expr) :
    Prop where
  mem : v ∈ g.parameters ++ g.results
  fits : v.Fits e
  /-- It is an expression of the caller. -/
  text : f.Says p n e

namespace Function

variable {p : Program} {f g : Function} {n : Nat} {pairs : List (Variable × Expr)} {c : Expr}
  (hh : p.Hygienic) (ho : p.OwnLengths) (hf : f ∈ p.functions) (hg : g ∈ p.functions)
  (hp : ∀ q ∈ pairs, f.Passes p g n q.1 q.2) (hc : c ∈ g.exprs)
  (hr : ∀ v ∈ c.reads [], ∃ q ∈ pairs, ∃ w ∈ q.1.withLength, w.name = v.name)

include hh ho hg in
theorem Passes.assigns {v : Variable} {e : Expr} (h : f.Passes p g n v e) :
    Assigns (g.Speaks 0) v e where
  mem := Or.inl (stateVariables_of_mem (List.mem_append_left _ h.mem) v.self_mem_withLength)
  fits := h.fits
  noLength hw hl := hw.ne_length hh hg
    (stateVariables_of_mem (List.mem_append_left _ h.mem) v.self_mem_withLength)
    (ho.noLength g hg v h.mem) hl

include hh ho hf hg hp hc hr in
/-- A contract says of what a call passes the same in the caller's state as in a state of the
callee. What the callee's state holds otherwise is given by `base`, and does not matter. -/
theorem holds_contract (s base : State M) :
    (Expr.substUnder (replacement pairs) [] c).Holds M s ↔
      c.Holds M (base.assignAll (pairs.map fun q => (q.1, q.2.item M s))) := by
  have hV := vocabulary hh ho hg 0
  have hassigns : ∀ q ∈ pairs, Assigns (g.Speaks 0) q.1 q.2 := fun q hq =>
    (hp q hq).assigns hh ho hg
  rw [holds_replacement hh ho hf hg (says_of_mem hg hc 0) hassigns fun q hq => (hp q hq).text]
  refine Expr.holds_congr fun v hv u hu => ?_
  obtain ⟨q, hq, w, hw, hn⟩ := hr v hv
  have hwV : g.Speaks 0 w := by
    rcases Variable.mem_withLength.1 hw with rfl | hl
    · exact (hassigns q hq).mem
    · exact hV.closed (hassigns q hq).mem hl
  -- the contract reads only what the call passes, so the rest of the state does not matter
  rw [← hV.unique hwV ((says_of_mem hg hc 0).reads v hv) hn] at hu
  refine State.read_assignAll_congr (fun q' hq' => ?_)
    (Or.inr ⟨_, List.mem_map_of_mem hq, Variable.withLength_subset hw hu⟩)
  obtain ⟨q₀, hq₀, rfl⟩ := List.mem_map.1 hq'
  exact (hp q₀ hq₀).fits.suits s

include hh ho hf hg hp hc hr in
/-- With what a call passes in it, a contract is a formula of the caller. Everything it reads has
been replaced, so no variable of the callee is left. -/
theorem says_contract : f.Says p n (Expr.substUnder (replacement pairs) [] c) := by
  refine says_replacement hh ho hf hg (says_of_mem hg hc 0)
    (fun q hq => (hp q hq).assigns hh ho hg) (fun q hq => (hp q hq).text) fun v hv hnone => ?_
  obtain ⟨q, hq, w, hw, hn⟩ := hr v hv
  have hsome := isSome_replacement hq (hp q hq).fits hw
  rw [hn, hnone] at hsome
  cases hsome

end Function

/-! ## Fresh variables for the results

A call with several results introduces as many fresh variables, numbered one after the other. -/

/-- The fresh variables for the targets of a call, numbered from `k + 1` on. Targets of one name
get different variables. -/
def Variable.freshAll (k : Nat) : List Variable → List Variable
  | [] => []
  | t :: ts => t.fresh (k + 1) :: freshAll (k + 1) ts

namespace Variable

@[simp] theorem length_freshAll (k : Nat) (ts : List Variable) :
    (freshAll k ts).length = ts.length := by
  induction ts generalizing k with
  | nil => rfl
  | cons t ts ih => rw [freshAll, List.length_cons, ih, List.length_cons]

theorem mem_freshAll {k : Nat} {ts : List Variable} {v : Variable} (h : v ∈ freshAll k ts) :
    ∃ t ∈ ts, ∃ j, k ≤ j ∧ j < k + ts.length ∧ v = t.fresh (j + 1) := by
  induction ts generalizing k with
  | nil => cases h
  | cons t ts ih =>
      rcases List.mem_cons.1 h with rfl | h
      · exact ⟨t, List.mem_cons_self, k, Nat.le_refl k, by rw [List.length_cons]; omega, rfl⟩
      · obtain ⟨u, hu, j, hkj, hj, rfl⟩ := ih h
        exact ⟨u, List.mem_cons_of_mem _ hu, j, by omega, by rw [List.length_cons]; omega, rfl⟩

/-- Fresh variables for targets fit the results. -/
theorem fits_freshAll {vs ts : List Variable}
    (h : ∀ q ∈ vs.zip ts, q.1.ty = q.2.ty ∧ q.1.isArray = q.1.ty.isArray ∧
      q.2.isArray = q.2.ty.isArray) (k : Nat) :
    ∀ q ∈ vs.zip ((freshAll k ts).map Expr.var), q.1.Fits q.2 := by
  induction ts generalizing vs k with
  | nil => simp [freshAll]
  | cons t ts ih =>
      cases vs with
      | nil => simp
      | cons v vs =>
          obtain ⟨⟨hty, hv, ht⟩, hrest⟩ := List.forall_mem_cons.1 h
          exact List.forall_mem_cons.2 ⟨.of_fresh hv ht hty (k + 1), ih hrest (k + 1)⟩

section Suits

variable {vs ts : List Variable} (hlen : vs.length = ts.length)
  (h : ∀ q ∈ vs.zip ts, q.1.ty = q.2.ty ∧ q.1.isArray = q.1.ty.isArray ∧
    q.2.isArray = q.2.ty.isArray)

include hlen h in
/-- Items that suit some variables suit the fresh variables for targets of the same types. -/
theorem suits_freshAll (k : Nat) {items : List (Item M)}
    (hi : List.Forall₂ Item.Suits items vs) : List.Forall₂ Item.Suits items (freshAll k ts) := by
  induction hi generalizing ts k with
  | nil =>
      cases ts with
      | nil => exact .nil
      | cons t ts => cases hlen
  | cons hi _ ih =>
      cases ts with
      | nil => cases hlen
      | cons t ts =>
          obtain ⟨⟨hty, hv, ht⟩, hrest⟩ := List.forall_mem_cons.1 h
          exact .cons (hi.fresh hv ht hty (k + 1)) (ih (Nat.succ.inj hlen) hrest (k + 1))

include hlen h in
/-- In every state the fresh variables hold what may be put into the results. States are typed, so
this needs no assumption about the values. -/
theorem items_freshAll_suit (k : Nat) (s : State M) :
    List.Forall₂ Item.Suits ((freshAll k ts).map fun v => (Expr.var v).item M s) vs := by
  induction ts generalizing vs k with
  | nil =>
      cases vs with
      | nil => exact .nil
      | cons v vs => cases hlen
  | cons t ts ih =>
      cases vs with
      | nil => cases hlen
      | cons v vs =>
          obtain ⟨⟨hty, hv, ht⟩, hrest⟩ := List.forall_mem_cons.1 h
          exact .cons ((Fits.of_fresh hv ht hty (k + 1)).suits s)
            (ih (Nat.succ.inj hlen) hrest (k + 1))

end Suits

theorem name_ne_length_fresh {t l : Variable} {k : Nat} (hl : (t.fresh k).length? = some l) :
    (t.fresh k).name ≠ l.name := by
  rw [name_fresh, length?_fresh hl]
  exact freshName_ne_lengthName _ _ _

/-- Fresh variables of one call are different, as are their lengths. The numbers tell them apart,
also where the targets are the same. -/
theorem pairwise_freshAll (k : Nat) (ts : List Variable) : (freshAll k ts).Pairwise Apart := by
  induction ts generalizing k with
  | nil => exact .nil
  | cons t ts ih =>
      refine .cons (fun v hv w hw w' hw' hn => ?_) (ih (k + 1))
      obtain ⟨u, -, j, hkj, -, rfl⟩ := mem_freshAll hv
      obtain ⟨-, hk, -⟩ := eq_of_mem_withLength_fresh hw hw' hn
      omega

/-- Items that are put into fresh variables are all found there. So for any results of a call
there is a state in which the fresh variables stand for them. -/
theorem map_item_freshAll (k : Nat) {ts : List Variable} {items : List (Item M)}
    (h : List.Forall₂ Item.Suits items (freshAll k ts)) (s : State M) :
    (freshAll k ts).map (fun v => (Expr.var v).item M (s.assignAll ((freshAll k ts).zip items))) =
      items := by
  have hlen := h.length_eq
  have hfst : ((freshAll k ts).zip items).map Prod.fst = freshAll k ts :=
    List.map_fst_zip (Nat.le_of_eq hlen.symm)
  have hfound : ∀ q ∈ (freshAll k ts).zip items,
      (Expr.var q.1).item M (s.assignAll ((freshAll k ts).zip items)) = q.2 := by
    refine State.item_assignAll (Item.suits_of_mem_zip h) (fun q hq l hl => ?_)
      (hfst.symm ▸ pairwise_freshAll k ts) s
    obtain ⟨t, -, j, -, -, hq'⟩ := mem_freshAll (List.of_mem_zip hq).1
    rw [hq'] at hl ⊢
    exact name_ne_length_fresh hl
  calc (freshAll k ts).map (fun v => (Expr.var v).item M (s.assignAll ((freshAll k ts).zip items)))
      = ((freshAll k ts).zip items).map
          (fun q => (Expr.var q.1).item M (s.assignAll ((freshAll k ts).zip items))) := by
        conv_lhs => rw [← hfst, List.map_map]
        rw [hfst]
        rfl
    _ = ((freshAll k ts).zip items).map Prod.snd := List.map_congr_left hfound
    _ = items := List.map_snd_zip (Nat.le_of_eq hlen)

end Variable

/-- The substitutions for a call replace the results and the targets by the fresh variables. Both
go by the same numbers, so a result and its target get the same variable. -/
theorem CallEffect.find?_bindResults {pairs : List (Variable × Variable)} {k : Nat}
    {c d : CallEffect} (h : bindResults k c pairs = .ok d) :
    (∀ x, d.contract.find? x = (replacement ((pairs.map Prod.fst).zip
      ((Variable.freshAll k (pairs.map Prod.snd)).map Expr.var)) x).or (c.contract.find? x)) ∧
    ∀ x, d.havoc.find? x = (replacement ((pairs.map Prod.snd).zip
      ((Variable.freshAll k (pairs.map Prod.snd)).map Expr.var)) x).or (c.havoc.find? x) := by
  induction pairs generalizing k c with
  | nil =>
      cases h
      exact ⟨fun _ => rfl, fun _ => rfl⟩
  -- each step adds two substitutions to those made so far, which keep what the later ones do not
  -- replace
  | cons q rest ih =>
      obtain ⟨-, h⟩ := seq_eq_ok_iff.1 h
      obtain ⟨σ, hσ, h⟩ := bind_eq_ok_iff.1 h
      obtain ⟨τ, hτ, h⟩ := bind_eq_ok_iff.1 h
      obtain ⟨hcontract, hhavoc⟩ := ih h
      refine ⟨fun x => ?_, fun x => ?_⟩
      · obtain ⟨hsorted, hfind⟩ := Variable.assignment_ok hσ
        rw [hcontract, SortedMap.find?_union _ hsorted, hfind, ← Option.or_assoc]
        rfl
      · obtain ⟨hsorted, hfind⟩ := Variable.assignment_ok hτ
        rw [hhavoc, SortedMap.find?_union _ hsorted, hfind, ← Option.or_assoc]
        rfl

/-- Where types and kinds fit, the substitutions for a call can be made. The kinds matter because
a fresh variable is an array by its type. -/
theorem CallEffect.exists_bindResults {pairs : List (Variable × Variable)}
    (hp : ∀ q ∈ pairs, q.1.ty = q.2.ty ∧ q.1.isArray = q.1.ty.isArray ∧
      q.2.isArray = q.2.ty.isArray) (k : Nat) (c : CallEffect) :
    ∃ d, bindResults k c pairs = .ok d := by
  induction pairs generalizing k c with
  | nil => exact ⟨c, rfl⟩
  | cons q rest ih =>
      obtain ⟨r, t⟩ := q
      obtain ⟨⟨hty, hr, ht⟩, hrest⟩ := List.forall_mem_cons.1 hp
      obtain ⟨σ, hσ⟩ := (Variable.Fits.of_fresh hr ht hty (k + 1)).exists_assignment
      obtain ⟨τ, hτ⟩ := (Variable.Fits.of_fresh ht ht rfl (k + 1)).exists_assignment
      obtain ⟨d, hd⟩ := ih hrest (k + 1) ⟨c.contract.union σ, c.havoc.union τ⟩
      have hexpect : t.expectType r.ty = .ok () :=
        require_eq_ok_iff.2 (decide_eq_true hty.symm)
      refine ⟨d, ?_⟩
      rw [bindResults, hexpect]
      simpa only [hσ, hτ, bind, Except.bind] using hd

end Pathwise
