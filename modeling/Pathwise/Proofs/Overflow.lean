import Pathwise.Proofs.Visits

/-!
# Pathwise.Proofs.Overflow

Integer arithmetic of the evaluator against exact arithmetic.

An arithmetic operation on integers has one exact result (`Operation.exact_iff`), and evaluation
gives it or, where it does not fit into 64 bits, an overflow (`Operation.apply_eq`). There is one
exception. The remainder of the smallest integer by minus one is zero, but evaluation goes through
the quotient, which does not fit (`Operation.remainderOfMin`).

An overflow is raised at the operation that it names, or comes from a call
(`Evaluator.overflowed_of_answer`). As calls end, an evaluation ends in an overflow if and only if
it reaches an operation that does (`Evaluator.answer_eq_overflow_iff`).

The exact result is given twice, as a relation and as a function. The relation is the
specification: for quotient and remainder it states the law of Euclidean division and does not use
any operation on integers that could be at fault itself. The function is what evaluation is
compared with.

Two directions are needed for evaluation as a whole. That an operation which overflows makes the
evaluation fail is the propagation of errors along calls. That there is no overflow without such
an operation is the search for it, from a failing visit to the call that has failed, which ends
because calls do.
-/

namespace Pathwise

open Relation

/-! ## Operations

Operations are taken out of expressions, so that their results can be spoken of without an
evaluator. The only case that needs thought is the quotient, which is smaller than the dividend
except for one pair of operands. -/

theorem fitting_of_fits64 {n : Int} (h : Fits64 n) (e : Expr) :
    ∃ i : Int64, i.toInt = n ∧ fitting e n = .ok (.int i) := by
  rw [fitting]
  cases hn : int64? n with
  | none => exact absurd h (int64?_eq_none_iff.1 hn)
  | some i => exact ⟨i, toInt_of_int64? hn, rfl⟩

theorem fitting_eq_overflow_iff {n : Int} {e d : Expr} :
    fitting e n = .error (.overflow d) ↔ e = d ∧ ¬ Fits64 n := by
  rw [fitting, ← int64?_eq_none_iff]
  cases int64? n <;> simp

/-- A unary or binary operation on integers. -/
inductive Operation where
  | neg (a : Int64)
  | binary (op : BinOp) (a b : Int64)

namespace Operation

/-- The operation is an arithmetic one, and no division by zero. -/
def Defined : Operation → Prop
  | neg _ => True
  | binary op _ b => op.isArithmetic ∧ (op = .div ∨ op = .mod → b ≠ 0)

/-- The exact result of an operation. Quotient and remainder are Euclidean: the remainder is not
negative. -/
inductive Exact : Operation → Int → Prop where
  | neg (a : Int64) : Exact (.neg a) (-a.toInt)
  | add (a b : Int64) : Exact (.binary .add a b) (a.toInt + b.toInt)
  | sub (a b : Int64) : Exact (.binary .sub a b) (a.toInt - b.toInt)
  | mul (a b : Int64) : Exact (.binary .mul a b) (a.toInt * b.toInt)
  | div {a b : Int64} {q r : Int} (h : a.toInt = b.toInt * q + r) (hr : 0 ≤ r)
      (hlt : r < b.toInt.natAbs) : Exact (.binary .div a b) q
  | mod {a b : Int64} {q r : Int} (h : a.toInt = b.toInt * q + r) (hr : 0 ≤ r)
      (hlt : r < b.toInt.natAbs) : Exact (.binary .mod a b) r

/-- The operation has an exact result, and it does not fit into 64 bits. -/
def Overflows (o : Operation) : Prop := o.Defined ∧ ∃ n, o.Exact n ∧ ¬ Fits64 n

/-- The smallest integer modulo minus one. The remainder is zero, but the quotient does not fit. -/
def remainderOfMin : Operation := .binary .mod Int64.minValue (-1)

/-- The exact result, computed. -/
def result : Operation → Int
  | neg a => -a.toInt
  | binary .add a b => a.toInt + b.toInt
  | binary .sub a b => a.toInt - b.toInt
  | binary .mul a b => a.toInt * b.toInt
  | binary .div a b => a.toInt / b.toInt
  | binary .mod a b => a.toInt % b.toInt
  | binary _ _ _ => 0

/-- What evaluation makes of the operation, as the expression `e`. -/
def apply (e : Expr) : Operation → EvalM Value
  | neg a => UnOp.neg.apply e (.int a)
  | binary op a b => op.apply e (.int a) (.int b)

variable {o : Operation} {a b : Int64} {e d : Expr} {n : Int}

/-- A defined operation has one exact result. For quotient and remainder this is the uniqueness of
Euclidean division. -/
theorem exact_iff (h : o.Defined) : o.Exact n ↔ n = o.result := by
  constructor
  · intro hn
    cases hn with
    -- only quotient and remainder are not given by a formula
    | div heq hr hlt =>
        exact ((euclidean_iff (toInt_ne_zero (h.2 (Or.inl rfl)))).1 ⟨heq, hr, hlt⟩).1
    | mod heq hr hlt =>
        exact ((euclidean_iff (toInt_ne_zero (h.2 (Or.inr rfl)))).1 ⟨heq, hr, hlt⟩).2
    | _ => rfl
  · rintro rfl
    cases o with
    | neg a => exact .neg a
    | binary op a b =>
        obtain ⟨hop, hb⟩ := h
        cases op with
        | add => exact .add a b
        | sub => exact .sub a b
        | mul => exact .mul a b
        | div =>
            obtain ⟨heq, hr, hlt⟩ := (euclidean_iff (toInt_ne_zero (hb (Or.inl rfl)))).2 ⟨rfl, rfl⟩
            exact .div heq hr hlt
        | mod =>
            obtain ⟨heq, hr, hlt⟩ := (euclidean_iff (toInt_ne_zero (hb (Or.inr rfl)))).2 ⟨rfl, rfl⟩
            exact .mod heq hr hlt
        | _ => cases hop

/-- Whether a defined operation overflows is seen from its result. -/
theorem overflows_iff (h : o.Defined) : o.Overflows ↔ ¬ Fits64 o.result := by
  constructor
  · intro hover
    obtain ⟨-, n, hn, hfits⟩ := hover
    rwa [← (exact_iff h).1 hn]
  · intro hfits
    exact ⟨h, o.result, (exact_iff h).2 rfl, hfits⟩

/-- The quotient of 64-bit integers fits, except for that of the smallest one by minus one. Its
magnitude is at most that of the dividend. -/
theorem fits64_ediv (hb : b ≠ 0) (h : binary .mod a b ≠ remainderOfMin) :
    Fits64 (a.toInt / b.toInt) := by
  obtain ⟨hlow, hhigh⟩ := fits64_toInt a
  have hle := Int.natAbs_ediv_le_natAbs a.toInt b.toInt
  refine ⟨by omega, Int.not_lt.1 fun hgt => h ?_⟩
  -- only one quotient is left, and only minus one gives it
  obtain ⟨hq, hr, hlt⟩ := (euclidean_iff (m := a.toInt) (toInt_ne_zero hb)).2 ⟨rfl, rfl⟩
  have hmax : a.toInt / b.toInt = 9223372036854775808 := by omega
  rw [hmax] at hq
  have hb' : b.toInt = -1 := by omega
  have ha : a.toInt = -9223372036854775808 := by omega
  rw [remainderOfMin, Int64.toInt_inj.1 (ha.trans Int64.toInt_minValue.symm),
    Int64.toInt_inj.1 (hb'.trans (by decide : (-1 : Int64).toInt = -1).symm)]

/-- Evaluation goes by the exact result, with one exception. It gives the result where that fits
and reports an overflow where not. -/
theorem apply_eq (h : o.Defined) (hne : o ≠ remainderOfMin) : o.apply e = fitting e o.result := by
  cases o with
  | neg a => rfl
  | binary op a b =>
      obtain ⟨hop, hb⟩ := h
      cases op with
      | add | sub | mul => rfl
      | div =>
          show (if b = 0 then .error (.divisionByZero e) else fitting e (a.toInt / b.toInt)) = _
          rw [if_neg (hb (Or.inl rfl))]
          rfl
      | mod =>
          have hb := hb (Or.inr rfl)
          cases hq : int64? (a.toInt / b.toInt) with
          | none => exact absurd (fits64_ediv hb hne) (int64?_eq_none_iff.1 hq)
          | some q => simp [apply, BinOp.apply, BinOp.onInts, hb, hq, result]
      | _ => cases hop

/-- Evaluation reports an overflow of exactly the operations that overflow, and of one more, whose
exact result is zero. -/
theorem apply_eq_overflow_iff :
    o.apply e = .error (.overflow d) ↔ e = d ∧ (o.Overflows ∨ o = remainderOfMin) := by
  by_cases hmin : o = remainderOfMin
  · subst hmin
    have happly : remainderOfMin.apply e = .error (.overflow e) := rfl
    simp [happly]
  · by_cases ho : o.Defined
    · rw [apply_eq ho hmin, fitting_eq_overflow_iff, overflows_iff ho]
      simp [hmin]
    · have hnot : ¬ o.Overflows := fun h => ho h.1
      simp only [hnot, hmin, or_false, and_false, iff_false]
      cases o with
      | neg a => exact absurd trivial ho
      | binary op a b =>
          cases op with
          | div | mod =>
              have hb : b = 0 := by simpa [Defined, BinOp.isArithmetic] using ho
              simp [apply, BinOp.apply, BinOp.onInts, hb]
          | add | sub | mul => simp [Defined, BinOp.isArithmetic] at ho
          | _ => simp [apply, BinOp.apply, BinOp.onInts]

end Operation

/-! ## Overflows

From operations to visits. An evaluation performs an operation where both operands have integers
as values; whether it overflows then depends on the operation alone. -/

namespace Evaluator

variable {ev : Evaluator} {t : Visit} {o : Operation} {d : Expr}

/-- The visit is to an operation on integers. -/
inductive Performs (ev : Evaluator) : Visit → Operation → Prop where
  | neg {depth : Nat} {e : Expr} {env : Valuation} {a : Int64}
      (h : ev.answer ⟨depth, e, env⟩ = .ok (.int a)) :
      Performs ev ⟨depth, .unary .neg e, env⟩ (.neg a)
  | binary {depth : Nat} {op : BinOp} {l r : Expr} {env : Valuation} {a b : Int64}
      (hl : ev.answer ⟨depth, l, env⟩ = .ok (.int a))
      (hr : ev.answer ⟨depth, r, env⟩ = .ok (.int b)) :
      Performs ev ⟨depth, .binary op l r, env⟩ (.binary op a b)

/-- The answer at an operation is what the operator makes of the operands. -/
theorem answer_of_performs (h : ev.Performs t o) (ho : o.Defined) :
    ev.answer t = o.apply t.expr := by
  rw [answer_eq]
  cases h with
  | neg h =>
      rw [answer_eq] at h
      simp only [Expr.evalWith, h]
      rfl
  | @binary _ op _ _ _ _ _ hl hr =>
      have hop : ¬ (op = .and ∨ op = .or ∨ op = .implies) := by
        rintro (rfl | rfl | rfl) <;> cases ho.1
      rw [answer_eq] at hl hr
      simp only [Expr.evalWith_operator hop, hl, hr]
      rfl

/-- A step that goes on with the truth value, the integer or the array that a value is does not
overflow by itself. -/
theorem cast_bind_eq_overflow {α β : Type} {x : EvalM Value} {cast : Value → EvalM α}
    {mk : α → Value} {k : α → EvalM β} (hcast : ∀ {v a}, cast v = .ok a → v = mk a)
    (hfail : ∀ v, cast v ≠ .error (.overflow d))
    (h : (x >>= fun v => cast v >>= k) = .error (.overflow d)) :
    x = .error (.overflow d) ∨ ∃ a, x = .ok (mk a) ∧ k a = .error (.overflow d) := by
  rcases bind_eq_error_iff.1 h with hx | ⟨v, rfl, hv⟩
  · exact Or.inl hx
  · rcases bind_eq_error_iff.1 hv with hv | ⟨a, ha, hk⟩
    · exact absurd hv (hfail v)
    · exact Or.inr ⟨a, by rw [hcast ha], hk⟩

theorem asBool_ne_overflow (e : Expr) (v : Value) : v.asBool e ≠ .error (.overflow d) := by
  cases v <;> simp [Value.asBool]

theorem asInt_ne_overflow (e : Expr) (v : Value) : v.asInt e ≠ .error (.overflow d) := by
  cases v <;> simp [Value.asInt]

theorem asArray_ne_overflow (e : Expr) (v : Value) : v.asArray e ≠ .error (.overflow d) := by
  cases v <;> simp [Value.asArray]

theorem eq_overflow_of_asBool {x : EvalM Value} {e : Expr}
    (h : (x >>= fun v => v.asBool e) = .error (.overflow d)) : x = .error (.overflow d) := by
  rcases bind_eq_error_iff.1 h with hx | ⟨v, -, hv⟩
  · exact hx
  · exact absurd hv (asBool_ne_overflow e v)

/-- Only operations on integers overflow. Floats have infinities, and other operands are errors of
types. -/
theorem ints_of_overflow {op : BinOp} {e : Expr} {x y : Value}
    (h : op.apply e x y = .error (.overflow d)) : ∃ a b, x = .int a ∧ y = .int b := by
  unfold BinOp.apply at h
  split at h
  · cases h
  · cases h
  · cases h
  · exact ⟨_, _, rfl, rfl⟩
  · -- floats are divided or not, and any other result is a value
    cases op with
    | div =>
        simp only [BinOp.onFloats, Option.getD_some] at h
        split at h <;> cases h
    | _ => cases h
  · cases h

/-! ### One constructor at a time

Where an evaluation overflows, the operator at its root has overflowed or one of its calls has. The
lemmas below find the call, one for each kind of expression that makes calls. An expression that
is evaluated after others is called only if those have values, so the lemmas follow the order
of evaluation. -/

/-- The overflow at a visit is its own, or that of a call. -/
def Overflowed (ev : Evaluator) (t : Visit) (d : Expr) : Prop :=
  (t.expr = d ∧ ∃ o, ev.Performs t o ∧ (o.Overflows ∨ o = .remainderOfMin)) ∨
    ∃ u, ev.Calls t u ∧ ev.answer u = .error (.overflow d)

section Cases

variable {depth : Nat} {env : Valuation}

/-- The parts of an expression are evaluated by calls. -/
theorem evalWith_eq_answer (e : Expr) :
    e.evalWith (ev.interpretation depth) env = ev.answer ⟨depth, e, env⟩ :=
  (ev.evalTo_eq _ _ _).symm

theorem overflowed_unary {op : UnOp} {e : Expr}
    (h : ev.answer ⟨depth, .unary op e, env⟩ = .error (.overflow d)) :
    ev.Overflowed ⟨depth, .unary op e, env⟩ d := by
  rw [← evalWith_eq_answer, Expr.evalWith, evalWith_eq_answer] at h
  rcases bind_eq_error_iff.1 h with h | ⟨x, hx, h⟩
  · exact Or.inr ⟨_, .operand, h⟩
  · left
    cases op with
    | not => cases x <;> cases h
    | neg =>
        cases x with
        | int a =>
            obtain ⟨heq, ho⟩ := Operation.apply_eq_overflow_iff (o := .neg a).1 h
            exact ⟨heq, _, .neg hx, ho⟩
        | _ => cases h

/-- The connectives have no overflows of their own, and look at the right operand only if the
left one does not settle them. -/
theorem overflowed_connective {op : BinOp} {l r : Expr}
    (hop : op = .and ∨ op = .or ∨ op = .implies)
    (h : ev.answer ⟨depth, .binary op l r, env⟩ = .error (.overflow d)) :
    ev.Overflowed ⟨depth, .binary op l r, env⟩ d := by
  right
  rw [← evalWith_eq_answer, Expr.evalWith_connective hop, evalWith_eq_answer,
    evalWith_eq_answer] at h
  rcases cast_bind_eq_overflow Value.eq_of_asBool (asBool_ne_overflow l) h with h | ⟨a, ha, h⟩
  · exact ⟨_, .left, h⟩
  · cases hs : op.settled? a with
    | some c =>
        rw [hs] at h
        cases h
    | none =>
        rw [hs] at h
        rcases cast_bind_eq_overflow Value.eq_of_asBool (asBool_ne_overflow r) h with h | ⟨b, -, h⟩
        · exact ⟨_, .right ha fun _ => ⟨a, rfl, hs⟩, h⟩
        · cases h

/-- Both operands are evaluated, and then the operator may overflow by itself. -/
theorem overflowed_operator {op : BinOp} {l r : Expr}
    (hop : ¬ (op = .and ∨ op = .or ∨ op = .implies))
    (h : ev.answer ⟨depth, .binary op l r, env⟩ = .error (.overflow d)) :
    ev.Overflowed ⟨depth, .binary op l r, env⟩ d := by
  rw [← evalWith_eq_answer, Expr.evalWith_operator hop, evalWith_eq_answer,
    evalWith_eq_answer] at h
  rcases bind_eq_error_iff.1 h with h | ⟨x, hx, h⟩
  · exact Or.inr ⟨_, .left, h⟩
  · rcases bind_eq_error_iff.1 h with h | ⟨y, hy, h⟩
    · exact Or.inr ⟨_, .right hx fun ho => absurd ho hop, h⟩
    · obtain ⟨a, b, rfl, rfl⟩ := ints_of_overflow h
      obtain ⟨heq, ho⟩ := Operation.apply_eq_overflow_iff (o := .binary op a b).1 h
      exact Or.inl ⟨heq, _, .binary hx hy, ho⟩

/-- The body overflows at some integer, and no smaller one has decided the quantifier. So the
evaluation does come to this integer. -/
theorem overflowed_quant {q : Quantifier} {v : Variable} {body : Expr}
    (h : ev.answer ⟨depth, .quant q v body, env⟩ = .error (.overflow d)) :
    ev.Overflowed ⟨depth, .quant q v body, env⟩ d := by
  right
  rw [← evalWith_eq_answer, Expr.evalWith, (ev.domain_interpretation depth).1] at h
  rcases bind_eq_error_iff.1 h with h | ⟨b, -, h⟩
  · obtain ⟨i, hlow, hhigh, hopen, herr⟩ := domain_eq_error_iff.1 h
    rw [evalWith_eq_answer] at herr
    refine ⟨_, .body hlow hhigh fun j hj hji => ?_, eq_overflow_of_asBool herr⟩
    exact eq_ok_of_asBool (evalWith_eq_answer body ▸ hopen j hj hji)
  · cases h

theorem overflowed_read {a i : Expr}
    (h : ev.answer ⟨depth, .read a i, env⟩ = .error (.overflow d)) :
    ev.Overflowed ⟨depth, .read a i, env⟩ d := by
  right
  rw [← evalWith_eq_answer, Expr.evalWith, evalWith_eq_answer, evalWith_eq_answer] at h
  rcases cast_bind_eq_overflow Value.eq_of_asArray (asArray_ne_overflow a) h with h | ⟨m, hm, h⟩
  · exact ⟨_, .array, h⟩
  · rcases cast_bind_eq_overflow Value.eq_of_asInt (asInt_ne_overflow i) h with h | ⟨k, -, h⟩
    · exact ⟨_, .index hm, h⟩
    · cases h

/-- The length of an update is not looked at, so it cannot overflow. -/
theorem overflowed_update {a i x n : Expr}
    (h : ev.answer ⟨depth, .update a i x n, env⟩ = .error (.overflow d)) :
    ev.Overflowed ⟨depth, .update a i x n, env⟩ d := by
  right
  rw [← evalWith_eq_answer, Expr.evalWith, evalWith_eq_answer, evalWith_eq_answer,
    evalWith_eq_answer] at h
  rcases cast_bind_eq_overflow Value.eq_of_asArray (asArray_ne_overflow a) h with h | ⟨m, hm, h⟩
  · exact ⟨_, .updated, h⟩
  · rcases cast_bind_eq_overflow Value.eq_of_asInt (asInt_ne_overflow i) h with h | ⟨k, hk, h⟩
    · exact ⟨_, .position hm, h⟩
    · rcases bind_eq_error_iff.1 h with h | ⟨y, -, h⟩
      · exact ⟨_, .value hm hk, h⟩
      · cases h

/-- An argument or a length overflows, or else the body of the predicate, if it is reached. -/
theorem overflowed_app {name : String} {args : List Expr}
    (h : ev.answer ⟨depth, .app name args, env⟩ = .error (.overflow d)) :
    ev.Overflowed ⟨depth, .app name args, env⟩ d := by
  right
  rw [← evalWith_eq_answer, Expr.evalWith, predicate?_interpretation] at h
  cases hq : ev.predicate? name with
  | none =>
      rw [hq] at h
      cases h
  | some q =>
      rw [hq] at h
      rcases bind_eq_error_iff.1 h with h | ⟨scope, hscope, h⟩
      · obtain ⟨e, he, herr⟩ := evalArgs_eq_error_iff.1 h
        exact ⟨_, .argument hq he, herr⟩
      · rcases bind_eq_error_iff.1 h with h | ⟨b, -, h⟩
        · cases depth with
          | zero => cases h
          | succ depth => exact ⟨_, .expansion hq hscope, eq_overflow_of_asBool h⟩
        · cases h

end Cases

/-- An overflow is raised at a visit or comes from a call. By cases on the expression, with a
lemma for each kind that has something to say. -/
theorem overflowed_of_answer (h : ev.answer t = .error (.overflow d)) : ev.Overflowed t d := by
  obtain ⟨depth, e, env⟩ := t
  have hroot := h
  rw [← evalWith_eq_answer] at hroot
  cases e with
  | var v =>
      rw [Expr.evalWith, Valuation.read] at hroot
      split at hroot <;> cases hroot
  | int n => cases hroot
  | float x => cases hroot
  | bool b => cases hroot
  | unary op e => exact overflowed_unary h
  | binary op l r =>
      by_cases hop : op = .and ∨ op = .or ∨ op = .implies
      · exact overflowed_connective hop h
      · exact overflowed_operator hop h
  | quant q v body => exact overflowed_quant h
  | read a i => exact overflowed_read h
  | update a i x n => exact overflowed_update h
  | call f args t => cases hroot
  | app name args => exact overflowed_app h

/-- Evaluation ends in an overflow if and only if it reaches an operation that does. Reaching is a
chain of calls, so that operations which are skipped do not count. -/
theorem answer_eq_overflow_iff :
    ev.answer t = .error (.overflow d) ↔
      ∃ u o, ReflTransGen ev.Calls t u ∧ u.expr = d ∧ ev.Performs u o ∧
        (o.Overflows ∨ o = .remainderOfMin) := by
  constructor
  · intro h
    induction t using ev.wellFounded_calls.induction with
    | _ t ih =>
        rcases overflowed_of_answer h with ⟨heq, o, hperforms, ho⟩ | ⟨u, hcall, hu⟩
        · exact ⟨t, o, .refl, heq, hperforms, ho⟩
        · obtain ⟨w, o, hreach, hw⟩ := ih u hcall hu
          exact ⟨w, o, .head hcall hreach, hw⟩
  · rintro ⟨u, o, hreach, rfl, hperforms, ho⟩
    induction hreach using ReflTransGen.head_induction_on with
    | refl =>
        have hdefined : o.Defined := by
          rcases ho with ho | rfl
          · exact ho.1
          · exact ⟨rfl, by decide⟩
        rw [answer_of_performs hperforms hdefined]
        exact Operation.apply_eq_overflow_iff.2 ⟨rfl, ho⟩
    | head hcall _ ih => exact hcall.answer_eq_error ih

end Evaluator

/-- Integer evaluation is exact. At every operation on integers that evaluation reaches, divisions
by zero aside, there is one exact result. The operation has it as its value if it fits into 64
bits, and overflows if and only if it does not fit. The smallest integer modulo minus one is an
exception. Evaluation as a whole ends in an overflow if and only if it reaches an operation
that overflows, or this one. -/
theorem integer_arithmetic_exact (ev : Evaluator) (e : Expr) (env : Valuation) :
    (∀ t o, ev.Reaches e env t → ev.Performs t o → o.Defined → o ≠ .remainderOfMin →
      ∃ n, (∀ m, o.Exact m ↔ m = n) ∧
        (Fits64 n → ∃ i : Int64, i.toInt = n ∧ ev.answer t = .ok (.int i)) ∧
        ((∃ d, ev.answer t = .error (.overflow d)) ↔ ¬ Fits64 n)) ∧
    ∀ d, ev.eval e env = .error (.overflow d) ↔
      ∃ t o, ev.Reaches e env t ∧ t.expr = d ∧ ev.Performs t o ∧
        (o.Overflows ∨ o = .remainderOfMin) := by
  constructor
  · intro t o _ hperforms ho hne
    refine ⟨o.result, fun m => Operation.exact_iff ho, ?_⟩
    rw [Evaluator.answer_of_performs hperforms ho, Operation.apply_eq ho hne]
    refine ⟨fun hfits => fitting_of_fits64 hfits _, ?_⟩
    simp [fitting_eq_overflow_iff]
  · intro d
    exact Evaluator.answer_eq_overflow_iff (t := ev.start e env)

namespace Growing

open Sample (i)

def k : Variable := .scalar "k" .int

/-- The successor of `k`. -/
def successor : Expr := .binary .add (.var k) (.int 1)

/-- The predicate `k + 1 > k`. -/
def grows : Predicate := ⟨"grows", 0, [k], .binary .gt successor (.var k)⟩

/-- The sum of the bound variable and `base`. -/
def shifted : Expr := .binary .add (.var i) (.var (.scalar "base" .int))

/-- The formula `forall i. grows(i + base)`. -/
def formula : Expr := .quant .all i (.app "grows" [shifted])

/-- The value of `base` is the largest integer but one. -/
def values : Valuation := .ofList [("base", .int 9223372036854775806)]

def evaluator : Evaluator := ⟨[grows], 0, 2⟩

/-- The visit to the sum for the first integer that is tried out. -/
def firstSum : Evaluator.Visit :=
  ⟨evaluator.expansionLimit, shifted, values.insert "i" (.int 0)⟩

/-- The evaluation gets to the sum, by way of the quantifier and the argument. -/
theorem reaches_firstSum : evaluator.Reaches formula values firstSum := by
  have hbody : evaluator.Calls (evaluator.start formula values)
      ⟨evaluator.expansionLimit, .app "grows" [shifted], values.insert "i" (.int 0)⟩ := by
    refine .body (v := i) (by decide) (by decide) fun j hlow hlt => ?_
    exact absurd hlt (Int64.not_lt.2 hlow)
  have hargument : evaluator.Calls
      ⟨evaluator.expansionLimit, .app "grows" [shifted], values.insert "i" (.int 0)⟩ firstSum :=
    .argument (q := grows) rfl .head
  exact .head hbody (.single hargument)

end Growing

open Growing

/-- For the second integer that is tried out, the argument is the largest integer, and its
successor in the body of the predicate overflows. -/
theorem integer_arithmetic_exact_growing :
    (evaluator.Reaches formula values firstSum ∧
      evaluator.Performs firstSum (.binary .add 0 9223372036854775806) ∧
      (∃ n, (∀ m, (Operation.binary .add 0 9223372036854775806).Exact m ↔ m = n) ∧
        (Fits64 n → ∃ i : Int64, i.toInt = n ∧ evaluator.answer firstSum = .ok (.int i)) ∧
        ((∃ d, evaluator.answer firstSum = .error (.overflow d)) ↔ ¬ Fits64 n))) ∧
    evaluator.eval formula values = .error (.overflow successor) ∧
    ∃ t o, evaluator.Reaches formula values t ∧ t.expr = successor ∧ evaluator.Performs t o ∧
      (o.Overflows ∨ o = .remainderOfMin) := by
  obtain ⟨hexact, hoverflow⟩ := integer_arithmetic_exact evaluator formula values
  have hperforms : evaluator.Performs firstSum (.binary .add 0 9223372036854775806) :=
    .binary rfl rfl
  have hdefined : (Operation.binary .add 0 9223372036854775806).Defined := ⟨rfl, by decide⟩
  have heval : evaluator.eval formula values = .error (.overflow successor) := rfl
  exact ⟨⟨reaches_firstSum, hperforms,
    hexact _ _ reaches_firstSum hperforms hdefined (by simp [Operation.remainderOfMin])⟩,
    heval, (hoverflow _).1 heval⟩

/-- The smallest integer modulo minus one. -/
def remainder : Expr := .binary .mod (.int Int64.minValue) (.int (-1))

/-- A remainder that is refused: it is zero, but evaluation reports an overflow. -/
theorem remainder_of_min_refused :
    Evaluator.Reaches ⟨[], -8, 8⟩ remainder .empty (Evaluator.start ⟨[], -8, 8⟩ remainder .empty) ∧
      Evaluator.Performs ⟨[], -8, 8⟩ (Evaluator.start ⟨[], -8, 8⟩ remainder .empty)
        .remainderOfMin ∧
      Operation.remainderOfMin.Defined ∧ Operation.remainderOfMin.Exact 0 ∧ Fits64 0 ∧
      Evaluator.eval ⟨[], -8, 8⟩ remainder .empty = .error (.overflow remainder) := by
  have hexact : Operation.remainderOfMin.Exact 0 :=
    .mod (q := 9223372036854775808) (by decide) (by decide) (by decide)
  exact ⟨.refl, .binary rfl rfl, ⟨rfl, by decide⟩, hexact, by decide, rfl⟩

end Pathwise
