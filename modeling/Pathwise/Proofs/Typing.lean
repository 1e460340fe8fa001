import Mathlib.Data.List.Forall2
import Pathwise.Program.Validate
import Pathwise.Proofs.Reads

/-!
# Pathwise.Proofs.Typing

What it takes for a check to succeed.

The checks of programs are sequences of smaller checks in `Except`. The first section says when
such a sequence succeeds, so that later proofs take checks apart without unfolding them. Then come
the facts about expressions that pass the type checker: the static type is the checked one
(`Program.ty_of_check`), and an expression of array type is a variable or an update
(`Program.array_of_check`). The type checker looks at each occurrence of a variable on its own;
that the occurrences of a name go together is said by `Uniform`.

There is one lemma per kind of expression (`Program.check_unary_iff` and so on), an equivalence
between success of the check and what is then known of the parts. Nothing after this module
unfolds `Program.check`.
-/

namespace Pathwise

/-! ## Sequences of checks

A check is a sequence of steps in `Except`, with `require` and `getOr` for single tests and `forM`
for lists. Each way to combine steps has a lemma that says when it succeeds, or with which error
it fails. -/

section Checks

variable {ε α β : Type}

/-- Two steps in a row succeed if both do. -/
theorem bind_eq_ok_iff {x : Except ε α} {f : α → Except ε β} {b : β} :
    (x >>= f) = .ok b ↔ ∃ a, x = .ok a ∧ f a = .ok b := by
  cases x <;> simp [bind, Except.bind]

/-- Two steps in a row fail in the first one, or else in the second. -/
theorem bind_eq_error_iff {x : Except ε α} {f : α → Except ε β} {err : ε} :
    (x >>= f) = .error err ↔ x = .error err ∨ ∃ a, x = .ok a ∧ f a = .error err := by
  cases x <;> simp [bind, Except.bind]

theorem seq_eq_ok_iff {x : Except ε Unit} {f : Unit → Except ε β} {b : β} :
    (x >>= f) = .ok b ↔ x = .ok () ∧ f () = .ok b := by
  rw [bind_eq_ok_iff]
  exact ⟨fun ⟨(), h⟩ => h, fun h => ⟨(), h⟩⟩

/-- A check of all items of a list succeeds if it succeeds on each. -/
theorem forM_eq_ok_iff {l : List α} {f : α → Except ε Unit} :
    l.forM f = .ok () ↔ ∀ a ∈ l, f a = .ok () := by
  induction l with
  | nil => simp [pure, Except.pure]
  | cons a l ih =>
      rw [List.forM, seq_eq_ok_iff, List.forall_mem_cons]
      exact and_congr_right fun _ => ih

theorem require_eq_ok_iff {c : Bool} {err : ε} : require c err = .ok () ↔ c = true := by
  cases c <;> simp [require]

theorem getOr_eq_ok_iff {x : Option α} {err : ε} {a : α} : getOr x err = .ok a ↔ x = some a := by
  cases x <;> simp [getOr]

theorem exists_left_of_forall₂ {R : α → β → Prop} {l : List α} {m : List β}
    (h : List.Forall₂ R l m) {b : β} (hb : b ∈ m) : ∃ a ∈ l, R a b := by
  induction h with
  | nil => cases hb
  | cons hab _ ih =>
      rcases List.mem_cons.1 hb with rfl | hb
      · exact ⟨_, List.mem_cons_self, hab⟩
      · obtain ⟨a, ha, hr⟩ := ih hb
        exact ⟨a, List.mem_cons_of_mem _ ha, hr⟩

end Checks

/-! ## Typed expressions

Success of the type checker, by kind of expression. Each lemma is an equivalence, so that it can
be read in both directions: to take apart a check that is known to succeed, and to show that one
does. -/

theorem UnOp.isArray_of_result? {op : UnOp} {t u : Ty} (h : op.result? u = some t) :
    t.isArray = false := by
  cases op <;> cases u <;> cases h <;> rfl

theorem BinOp.isArray_result {op : BinOp} {u : Ty} (h : op.appliesTo u) :
    (op.result u).isArray = false := by
  cases u with
  | array elem => cases op <;> cases h
  | _ => cases op <;> rfl

namespace Program

variable {p : Program} {t : Ty}

theorem check_unary_iff {op : UnOp} {e : Expr} :
    p.check (.unary op e) = .ok t ↔ ∃ u, p.check e = .ok u ∧ op.result? u = some t := by
  rw [check, bind_eq_ok_iff]
  refine exists_congr fun u => and_congr_right fun _ => ?_
  cases op.result? u <;> simp

/-- Both operands have the same type, and the operator applies to it. -/
theorem check_binary_iff {op : BinOp} {l r : Expr} :
    p.check (.binary op l r) = .ok t ↔
      ∃ u, p.check l = .ok u ∧ p.check r = .ok u ∧ op.appliesTo u ∧ op.result u = t := by
  rw [check, bind_eq_ok_iff]
  refine exists_congr fun u => and_congr_right fun _ => ?_
  rw [bind_eq_ok_iff]
  constructor
  · rintro ⟨w, hw, h⟩
    split at h
    · cases h
    · next huw =>
        split at h
        · cases h
        · next ha =>
            exact ⟨Decidable.not_not.1 huw ▸ hw, by simpa using ha, Except.ok.inj h⟩
  · rintro ⟨hw, ha, rfl⟩
    exact ⟨u, hw, by simp [ha]⟩

theorem check_quant_iff {q : Quantifier} {v : Variable} {body : Expr} :
    p.check (.quant q v body) = .ok t ↔
      v.kind = .quantified ∧ v.ty = .int ∧ p.check body = .ok .bool ∧ t = .bool := by
  rw [check]
  by_cases hv : v.kind ≠ .quantified ∨ v.ty ≠ .int
  · rw [if_pos hv]
    refine ⟨nofun, fun ⟨hk, ht, _⟩ => ?_⟩
    simp [hk, ht] at hv
  · rw [if_neg hv, bind_eq_ok_iff]
    simp only [not_or, Decidable.not_not] at hv
    constructor
    · rintro ⟨u, hu, h⟩
      split at h
      · next hb => exact ⟨hv.1, hv.2, hb ▸ hu, (Except.ok.inj h).symm⟩
      · cases h
    · rintro ⟨-, -, hb, rfl⟩
      exact ⟨.bool, hb, rfl⟩

/-- What is read is an element of an array. -/
theorem check_read_iff {a i : Expr} :
    p.check (.read a i) = .ok t ↔
      ∃ elem, p.check a = .ok (.array elem) ∧ elem.toTy = t ∧ p.check i = .ok .int := by
  rw [check, bind_eq_ok_iff]
  constructor
  · rintro ⟨u, hu, h⟩
    cases u with
    | array elem =>
        obtain ⟨k, hk, h⟩ := bind_eq_ok_iff.1 h
        split at h
        · next hint => exact ⟨elem, hu, Except.ok.inj h, hint ▸ hk⟩
        · cases h
    | _ => cases h
  · rintro ⟨elem, ha, rfl, hi⟩
    exact ⟨.array elem, ha, bind_eq_ok_iff.2 ⟨.int, hi, rfl⟩⟩

theorem check_update_iff {a i x n : Expr} :
    p.check (.update a i x n) = .ok t ↔
      ∃ elem, p.check a = .ok (.array elem) ∧ p.check i = .ok .int ∧ p.check n = .ok .int ∧
        p.check x = .ok elem.toTy ∧ t = .array elem := by
  rw [check, bind_eq_ok_iff]
  constructor
  · rintro ⟨u, hu, h⟩
    cases u with
    | array elem =>
        obtain ⟨k, hk, h⟩ := bind_eq_ok_iff.1 h
        split at h
        · cases h
        · next hki =>
            obtain ⟨m, hm, h⟩ := bind_eq_ok_iff.1 h
            split at h
            · cases h
            · next hmi =>
                obtain ⟨s, hs, h⟩ := bind_eq_ok_iff.1 h
                split at h
                · cases h
                · next hse =>
                    -- index, length and value were checked in this order, each after the one
                    -- before
                    rw [Decidable.not_not] at hki hmi hse
                    exact ⟨elem, hu, hki ▸ hk, hmi ▸ hm, hse ▸ hs, (Except.ok.inj h).symm⟩
    | _ => cases h
  · rintro ⟨elem, ha, hi, hn, hx, rfl⟩
    refine ⟨.array elem, ha, ?_⟩
    simp only [Ty.element?, hi, hn, hx, bind, Except.bind]
    simp

theorem checkList_eq_ok_iff {es : List Expr} :
    p.checkList es = .ok () ↔ ∀ e ∈ es, ∃ u, p.check e = .ok u := by
  induction es with
  | nil => simp [checkList]
  | cons e es ih =>
      rw [checkList, bind_eq_ok_iff, List.forall_mem_cons, ← ih]
      exact ⟨fun ⟨u, hu, h⟩ => ⟨⟨u, hu⟩, h⟩, fun ⟨⟨u, hu⟩, h⟩ => ⟨u, hu, h⟩⟩

/-- The arguments of a function term may have any types, and the term is of the type it is marked
with. -/
theorem check_call_iff {f : String} {args : List Expr} {u : Ty} :
    p.check (.call f args u) = .ok t ↔
      (∀ e ∈ args, ∃ w, p.check e = .ok w) ∧ u = t ∧ t.isArray = false := by
  rw [check, seq_eq_ok_iff, checkList_eq_ok_iff]
  refine and_congr_right fun _ => ?_
  split
  · next ha =>
      refine ⟨nofun, ?_⟩
      rintro ⟨rfl, hn⟩
      rw [ha] at hn
      cases hn
  · next ha =>
      constructor
      · intro h
        rw [← Except.ok.inj h]
        exact ⟨rfl, by simpa using ha⟩
      · rintro ⟨rfl, -⟩
        rfl

theorem checkArgs_eq_ok_iff {name : String} {params : List Variable} {es : List Expr}
    (hlen : params.length = es.length) :
    p.checkArgs name params es = .ok () ↔
      List.Forall₂ (fun v e => p.check e = .ok v.ty) params es := by
  induction es generalizing params with
  | nil =>
      rw [List.length_eq_zero_iff.1 hlen]
      simp [checkArgs]
  | cons e es ih =>
      cases params with
      | nil => cases hlen
      | cons v params =>
          rw [checkArgs, bind_eq_ok_iff, List.forall₂_cons, ← ih (Nat.succ.inj hlen)]
          constructor
          · rintro ⟨u, hu, h⟩
            split at h
            · cases h
            · next huv => exact ⟨Decidable.not_not.1 huv ▸ hu, h⟩
          · rintro ⟨hu, h⟩
            exact ⟨v.ty, hu, by rwa [if_neg (by simp)]⟩

theorem mem_of_predicate? {name : String} {q : Predicate} (h : p.predicate? name = some q) :
    q ∈ p.predicates ∧ q.name = name :=
  ⟨List.mem_of_find?_eq_some h, by simpa using List.find?_some h⟩

/-- A predicate is applied to arguments of the types of its parameters, one for each. -/
theorem check_app_iff {name : String} {args : List Expr} :
    p.check (.app name args) = .ok t ↔
      t = .bool ∧ ∃ q, p.predicate? name = some q ∧
        List.Forall₂ (fun v e => p.check e = .ok v.ty) q.parameters args := by
  rw [check]
  constructor
  · intro h
    split at h
    · cases h
    · next q hq =>
        split at h
        · cases h
        · next hlen =>
            obtain ⟨hargs, h⟩ := seq_eq_ok_iff.1 h
            exact ⟨(Except.ok.inj h).symm, q, hq,
              (checkArgs_eq_ok_iff (Decidable.not_not.1 hlen)).1 hargs⟩
  · rintro ⟨rfl, q, hq, hargs⟩
    have hlen := hargs.length_eq
    rw [hq]
    dsimp only
    rw [if_neg (by simp [hlen]), (checkArgs_eq_ok_iff hlen).2 hargs]
    rfl

/-- The type checker finds the static type. Where the check fails the static type is still
defined, and says nothing. -/
theorem ty_of_check {e : Expr} (h : p.check e = .ok t) : e.ty = t := by
  induction e generalizing t with
  | var v => exact Except.ok.inj h
  | int n => exact Except.ok.inj h
  | float x => exact Except.ok.inj h
  | bool b => exact Except.ok.inj h
  | unary op e ih =>
      obtain ⟨u, hu, hr⟩ := check_unary_iff.1 h
      cases op with
      | neg =>
          rw [UnOp.result?] at hr
          split at hr
          · rw [Expr.ty, ih hu, Option.some.inj hr]
          · cases hr
      | not =>
          rw [UnOp.result?] at hr
          split at hr
          · rw [Expr.ty, Option.some.inj hr]
          · cases hr
  | binary op l r ihl _ =>
      obtain ⟨u, hu, -, -, hr⟩ := check_binary_iff.1 h
      rw [Expr.ty, ihl hu, ← hr, BinOp.result]
  | quant q v body _ => rw [(check_quant_iff.1 h).2.2.2, Expr.ty]
  | read a i iha _ =>
      obtain ⟨elem, ha, rfl, -⟩ := check_read_iff.1 h
      rw [Expr.ty, iha ha, Ty.element?, Option.getD_some]
  | update a i x n iha _ _ _ =>
      obtain ⟨elem, ha, -, -, -, rfl⟩ := check_update_iff.1 h
      rw [Expr.ty, iha ha]
  | call f args u _ => rw [Expr.ty, (check_call_iff.1 h).2.1]
  | app q args _ => rw [(check_app_iff.1 h).1, Expr.ty]

/-- An expression of array type is a variable or an update. Those are the expressions with a
length, so the length of an array is always at hand. -/
theorem array_of_check {e : Expr} (h : p.check e = .ok t) (ht : t.isArray) :
    (∃ v, e = .var v) ∨ ∃ a i x n, e = .update a i x n := by
  cases e with
  | var v => exact Or.inl ⟨v, rfl⟩
  | int n => rw [← Except.ok.inj h] at ht; cases ht
  | float x => rw [← Except.ok.inj h] at ht; cases ht
  | bool b => rw [← Except.ok.inj h] at ht; cases ht
  | unary op e =>
      obtain ⟨u, -, hr⟩ := check_unary_iff.1 h
      rw [UnOp.isArray_of_result? hr] at ht
      cases ht
  | binary op l r =>
      obtain ⟨u, -, -, ha, hr⟩ := check_binary_iff.1 h
      rw [← hr, BinOp.isArray_result ha] at ht
      cases ht
  | quant q v body => rw [(check_quant_iff.1 h).2.2.2] at ht; cases ht
  | read a i =>
      obtain ⟨elem, -, rfl, -⟩ := check_read_iff.1 h
      rw [Ty.isArray_toTy] at ht
      cases ht
  -- all other kinds of expressions have a type that is no array
  | update a i x n => exact Or.inr ⟨a, i, x, n, rfl⟩
  | call f args u => rw [(check_call_iff.1 h).2.2] at ht; cases ht
  | app q args => rw [(check_app_iff.1 h).1] at ht; cases ht

/-- The length of a checked expression is an integer. -/
theorem lengthTy_of_check {e n : Expr} (h : p.check e = .ok t) (hn : e.arrayLength? = some n) :
    n.ty = .int := by
  cases e with
  | var v =>
      obtain ⟨l, hl, rfl⟩ := Option.map_eq_some_iff.1 hn
      exact Variable.ty_of_length? hl
  | update a i x m =>
      cases hn
      obtain ⟨elem, -, -, hn, -⟩ := check_update_iff.1 h
      exact ty_of_check hn
  | _ => cases hn

theorem check_of_child {e c : Expr} (h : p.check e = .ok t) (hc : c ∈ e.children) :
    ∃ u, p.check c = .ok u := by
  cases e with
  | unary op e =>
      obtain ⟨u, hu, -⟩ := check_unary_iff.1 h
      rw [List.mem_singleton.1 hc]
      exact ⟨u, hu⟩
  | binary op l r =>
      obtain ⟨u, hl, hr, -⟩ := check_binary_iff.1 h
      rcases List.mem_pair.1 hc with rfl | rfl
      · exact ⟨u, hl⟩
      · exact ⟨u, hr⟩
  | quant q v body =>
      rw [List.mem_singleton.1 hc]
      exact ⟨.bool, (check_quant_iff.1 h).2.2.1⟩
  | read a i =>
      obtain ⟨elem, ha, -, hi⟩ := check_read_iff.1 h
      rcases List.mem_pair.1 hc with rfl | rfl
      · exact ⟨_, ha⟩
      · exact ⟨_, hi⟩
  | update a i x n =>
      obtain ⟨elem, ha, hi, hn, hx, -⟩ := check_update_iff.1 h
      simp only [Expr.children, List.mem_cons, List.not_mem_nil, or_false] at hc
      rcases hc with rfl | rfl | rfl | rfl
      · exact ⟨_, ha⟩
      · exact ⟨_, hi⟩
      · exact ⟨_, hx⟩
      · exact ⟨_, hn⟩
  | call f args u => exact (check_call_iff.1 h).1 c hc
  | app name args =>
      obtain ⟨-, q, -, hargs⟩ := check_app_iff.1 h
      obtain ⟨v, -, hv⟩ := exists_left_of_forall₂ hargs hc
      exact ⟨v.ty, hv⟩
  | _ => cases hc

/-- All subexpressions of a checked expression are checked, since the check of an expression goes
through all its parts. -/
theorem check_of_mem_visit {e d : Expr} (h : p.check e = .ok t) (hd : d ∈ e.visit) :
    ∃ u, p.check d = .ok u := by
  induction e using Expr.childInduct generalizing t with
  | step e ih =>
      rw [Expr.visit_eq] at hd
      rcases List.mem_cons.1 hd with rfl | hd
      · exact ⟨t, h⟩
      · obtain ⟨c, hc, hdc⟩ := List.mem_flatMap.1 hd
        obtain ⟨u, hu⟩ := check_of_child h hc
        exact ih c hc hu hdc

end Program

/-! ## Names with one type

Formulas refer to variables by name, and so does a solver. What has one name should be one thing,
which the type checker does not see to. -/

/-- A name has one type, and the variables of array types, and no others, are arrays. Validation
does not ask for this: types are checked where a variable stands. -/
structure Uniform (vs : List Variable) : Prop where
  /-- Variables of one name have one type. -/
  ty : ∀ v ∈ vs, ∀ w ∈ vs, v.name = w.name → v.ty = w.ty
  /-- The variables of array types, and no others, are arrays. -/
  kinds : ∀ v ∈ vs, v.isArray = v.ty.isArray

instance (vs : List Variable) : Decidable (Uniform vs) :=
  decidable_of_iff
    ((∀ v ∈ vs, ∀ w ∈ vs, v.name = w.name → v.ty = w.ty) ∧ ∀ v ∈ vs, v.isArray = v.ty.isArray)
    ⟨fun ⟨h₁, h₂⟩ => ⟨h₁, h₂⟩, fun ⟨h₁, h₂⟩ => ⟨h₁, h₂⟩⟩

theorem Uniform.mono {vs ws : List Variable} (h : Uniform ws) (hs : vs ⊆ ws) : Uniform vs where
  ty v hv w hw := h.ty v (hs hv) w (hs hw)
  kinds v hv := h.kinds v (hs hv)

end Pathwise
