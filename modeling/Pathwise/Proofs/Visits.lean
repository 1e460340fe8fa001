import Mathlib.Logic.Relation
import Pathwise.Proofs.Evaluation

/-!
# Pathwise.Proofs.Visits

What the evaluation of an expression evaluates on its way.

A visit is an expression in a valuation, at a depth of nested expansions. `Evaluator.Calls` says
which visits one visit makes: to operands that are looked at, to the body of a quantifier for the
integers that are tried out, to arguments and bodies of predicates. It takes into account what
keeps evaluation from going on, so that the visits are those that really happen, in whatever
order. A call that fails makes its caller fail in the same way
(`Evaluator.Calls.answer_eq_error`), and calls do not go on forever
(`Evaluator.wellFounded_calls`).

With visits, statements about evaluation can be about single operations. "Every integer operation
that is carried out is exact" quantifies over the visits of an evaluation, and "evaluation fails
with an overflow exactly if some operation overflows" follows a failing call down to the operation
that is to blame. Neither can be said of the answer alone.
-/

namespace Pathwise

open Relation

namespace Evaluator

/-! ## Calls

One constructor for each place where the evaluator calls itself, with what has to have happened
before as its hypotheses. For a quantifier these are the answers at all smaller integers of the
domain. -/

/-- An expression that evaluation comes to, with the values of variables and the number of nested
expansions that are left. -/
structure Visit where
  depth : Nat
  expr : Expr
  env : Valuation

/-- The answer of evaluation at a visit. -/
def answer (ev : Evaluator) (t : Visit) : EvalM Value := ev.evalTo t.depth t.expr t.env

/-- Where the evaluation of an expression begins. -/
def start (ev : Evaluator) (e : Expr) (env : Valuation) : Visit := ⟨ev.expansionLimit, e, env⟩

/-- The expressions that are evaluated to bind parameters to arguments, in order. An argument is
followed by its length, where the parameter has one. -/
def passed : List Variable → List Expr → List Expr
  | v :: vs, e :: es =>
    e :: ((if v.length?.isSome then e.arrayLength?.toList else []) ++ passed vs es)
  | _, _ => []

/-- Evaluating the expressions of a list in turn comes to one of them: those before it have
values. -/
inductive Turn (ev : Evaluator) (depth : Nat) (env : Valuation) : List Expr → Expr → Prop where
  | head {e : Expr} {es : List Expr} : Turn ev depth env (e :: es) e
  | tail {d e : Expr} {es : List Expr} (value : ∃ x, ev.answer ⟨depth, d, env⟩ = .ok x)
      (rest : Turn ev depth env es e) : Turn ev depth env (d :: es) e

/-- The evaluation at one visit evaluates the expression of another. What is skipped is not
called: the right operand of a settled connective, or the integers after a deciding one. -/
inductive Calls (ev : Evaluator) : Visit → Visit → Prop where
  | operand {depth : Nat} {op : UnOp} {e : Expr} {env : Valuation} :
      Calls ev ⟨depth, .unary op e, env⟩ ⟨depth, e, env⟩
  | left {depth : Nat} {op : BinOp} {l r : Expr} {env : Valuation} :
      Calls ev ⟨depth, .binary op l r, env⟩ ⟨depth, l, env⟩
  /-- A connective looks at its right operand if the left one does not settle it. -/
  | right {depth : Nat} {op : BinOp} {l r : Expr} {env : Valuation} {x : Value}
      (hl : ev.answer ⟨depth, l, env⟩ = .ok x)
      (hopen : op = .and ∨ op = .or ∨ op = .implies → ∃ a, x = .bool a ∧ op.settled? a = none) :
      Calls ev ⟨depth, .binary op l r, env⟩ ⟨depth, r, env⟩
  /-- A quantifier comes to an integer if no smaller one of the domain decides it. -/
  | body {depth : Nat} {q : Quantifier} {v : Variable} {body : Expr} {env : Valuation} {i : Int64}
      (hlow : ev.low ≤ i) (hhigh : i ≤ ev.high)
      (hopen : ∀ j, ev.low ≤ j → j < i →
        ev.answer ⟨depth, body, env.insert v.name (.int j)⟩ = .ok (.bool (q = .all))) :
      Calls ev ⟨depth, .quant q v body, env⟩ ⟨depth, body, env.insert v.name (.int i)⟩
  | array {depth : Nat} {a i : Expr} {env : Valuation} :
      Calls ev ⟨depth, .read a i, env⟩ ⟨depth, a, env⟩
  | index {depth : Nat} {a i : Expr} {env : Valuation} {m : TotalMap Value}
      (ha : ev.answer ⟨depth, a, env⟩ = .ok (.array m)) :
      Calls ev ⟨depth, .read a i, env⟩ ⟨depth, i, env⟩
  | updated {depth : Nat} {a i x n : Expr} {env : Valuation} :
      Calls ev ⟨depth, .update a i x n, env⟩ ⟨depth, a, env⟩
  | position {depth : Nat} {a i x n : Expr} {env : Valuation} {m : TotalMap Value}
      (ha : ev.answer ⟨depth, a, env⟩ = .ok (.array m)) :
      Calls ev ⟨depth, .update a i x n, env⟩ ⟨depth, i, env⟩
  | value {depth : Nat} {a i x n : Expr} {env : Valuation} {m : TotalMap Value} {k : Int64}
      (ha : ev.answer ⟨depth, a, env⟩ = .ok (.array m))
      (hi : ev.answer ⟨depth, i, env⟩ = .ok (.int k)) :
      Calls ev ⟨depth, .update a i x n, env⟩ ⟨depth, x, env⟩
  | argument {depth : Nat} {name : String} {args : List Expr} {env : Valuation} {q : Predicate}
      {e : Expr} (hq : ev.predicate? name = some q)
      (he : ev.Turn depth env (passed q.parameters args) e) :
      Calls ev ⟨depth, .app name args, env⟩ ⟨depth, e, env⟩
  | expansion {depth : Nat} {name : String} {args : List Expr} {env scope : Valuation}
      {q : Predicate} (hq : ev.predicate? name = some q)
      (hscope : Expr.evalArgs (ev.interpretation (depth + 1)) env q.parameters .empty args =
        .ok scope) :
      Calls ev ⟨depth + 1, .app name args, env⟩ ⟨depth, q.body, scope⟩

/-- The evaluation of an expression comes to a visit. Only expressions that are evaluated count: a
quantifier stops at the first integer that decides it, and a connective may not need its right
operand. -/
def Reaches (ev : Evaluator) (e : Expr) (env : Valuation) (t : Visit) : Prop :=
  ReflTransGen ev.Calls (ev.start e env) t

variable {ev : Evaluator} {depth : Nat} {env : Valuation} {err : EvalError} {t u : Visit}

/-! ## Failing calls

Errors go up unchanged. The conditions of a call are just those under which the caller has not
stopped before, so that the error of the call becomes the error of the caller. -/

/-- The answer at a visit, by the recursion over the expression. -/
theorem answer_eq (ev : Evaluator) (t : Visit) :
    ev.answer t = t.expr.evalWith (ev.interpretation t.depth) t.env :=
  ev.evalTo_eq t.depth t.expr t.env

theorem predicate?_interpretation (ev : Evaluator) (depth : Nat) :
    (ev.interpretation depth).predicate? = ev.predicate? := by
  cases depth <;> rfl

theorem expand_interpretation (ev : Evaluator) (depth : Nat) (q : Predicate) (scope : Valuation) :
    (ev.interpretation (depth + 1)).expand q scope =
      (ev.answer ⟨depth, q.body, scope⟩ >>= fun v => v.asBool q.body) := rfl

/-- The expressions of a list are evaluated up to the first one that fails. The error of a list is
therefore the error of one expression, all before which have values. -/
theorem turn_cons_iff {e : Expr} {es : List Expr} :
    (∃ d, ev.Turn depth env (e :: es) d ∧ ev.answer ⟨depth, d, env⟩ = .error err) ↔
      ev.answer ⟨depth, e, env⟩ = .error err ∨
        (∃ x, ev.answer ⟨depth, e, env⟩ = .ok x) ∧
          ∃ d, ev.Turn depth env es d ∧ ev.answer ⟨depth, d, env⟩ = .error err := by
  constructor
  · rintro ⟨d, hd, herr⟩
    cases hd with
    | head => exact Or.inl herr
    | tail hvalue hrest => exact Or.inr ⟨hvalue, d, hrest, herr⟩
  · rintro (herr | ⟨hvalue, d, hd, herr⟩)
    · exact ⟨e, .head, herr⟩
    · exact ⟨d, .tail hvalue hd, herr⟩

/-- Binding parameters fails with the first argument or length that fails. An argument comes
before its length, and both before the next argument. -/
theorem evalArgs_eq_error_iff {params : List Variable} {args : List Expr} {scope : Valuation} :
    Expr.evalArgs (ev.interpretation depth) env params scope args = .error err ↔
      ∃ e, ev.Turn depth env (passed params args) e ∧ ev.answer ⟨depth, e, env⟩ = .error err := by
  have hnil : ¬ ∃ e, ev.Turn depth env [] e ∧ ev.answer ⟨depth, e, env⟩ = .error err := by
    rintro ⟨e, he, -⟩
    cases he
  induction args generalizing params scope with
  | nil => cases params <;> simpa [Expr.evalArgs, passed] using hnil
  | cons e es ih =>
      cases params with
      | nil => simpa [Expr.evalArgs, passed] using hnil
      | cons v vs =>
          have hvalue : ∀ d, d.evalWith (ev.interpretation depth) env =
              ev.answer ⟨depth, d, env⟩ := fun d => (ev.answer_eq ⟨depth, d, env⟩).symm
          rw [passed, turn_cons_iff, Expr.evalArgs, bind_eq_error_iff, Expr.evalLength_eq, hvalue]
          cases hl : v.length? with
          | none => simp [ih]
          | some l =>
              cases hn : e.arrayLength? with
              | none => simp [ih]
              | some n => simp [turn_cons_iff, bind_eq_error_iff, hvalue, ih]

theorem domain_interpretation (ev : Evaluator) (depth : Nat) :
    (ev.interpretation depth).low = ev.low ∧ (ev.interpretation depth).high = ev.high := by
  cases depth <;> exact ⟨rfl, rfl⟩

/-- Trying out consecutive integers fails at the first one that fails, if none before decides.
Those before it are instances that a universal quantifier finds true and an existential one false.
-/
theorem decide_eq_error_iff {q : Quantifier} {holds : Int64 → EvalM Bool} {first : Int}
    {count : Nat} :
    q.decide holds first count = .error err ↔
      ∃ i, first ≤ i ∧ i < first + count ∧
        (∀ j, first ≤ j → j < i → holds (Int64.ofInt j) = .ok (q = .all)) ∧
        holds (Int64.ofInt i) = .error err := by
  induction count generalizing first with
  | zero =>
      simp only [Quantifier.decide, reduceCtorEq, false_iff]
      rintro ⟨i, hlow, hhigh, -⟩
      omega
  | succ n ih =>
      rw [Quantifier.decide, bind_eq_error_iff]
      constructor
      · rintro (h | ⟨b, hb, h⟩)
        · exact ⟨first, Int.le_refl _, by omega, fun j hj hlt => by omega, h⟩
        -- had the first integer decided, there would be no error
        · have hrest : b = decide (q = .all) ∧ q.decide holds (first + 1) n = .error err := by
            cases q <;> cases b <;> simp_all
          obtain ⟨i, hlow, hhigh, hopen, hi⟩ := ih.1 hrest.2
          refine ⟨i, by omega, by omega, fun j hj hlt => ?_, hi⟩
          by_cases hfirst : j = first
          · rw [hfirst, hb, hrest.1]
          · exact hopen j (by omega) hlt
      · rintro ⟨i, hlow, hhigh, hopen, hi⟩
        by_cases hfirst : i = first
        · exact Or.inl (hfirst ▸ hi)
        · have hrest : q.decide holds (first + 1) n = .error err :=
            ih.2 ⟨i, by omega, by omega, fun j hj => hopen j (by omega), hi⟩
          refine Or.inr ⟨_, hopen first (Int.le_refl _) (by omega), ?_⟩
          cases q <;> exact hrest

/-- An integer between two words is a word. -/
theorem toInt_ofInt_between (low high : Int64) {i : Int} (hlow : low.toInt ≤ i)
    (hhigh : i ≤ high.toInt) : (Int64.ofInt i).toInt = i := by
  have hmin := low.le_toInt
  have hmax := high.toInt_lt
  exact Int64.toInt_ofInt_of_le (by omega) (by omega)

/-- A quantifier fails at the first integer of its domain that fails, if none before decides. The
statement is about words, since the domain lies between two of them. -/
theorem domain_eq_error_iff {q : Quantifier} {holds : Int64 → EvalM Bool} :
    q.decide holds ev.low.toInt (ev.interpretation depth).domainSize = .error err ↔
      ∃ i, ev.low ≤ i ∧ i ≤ ev.high ∧ (∀ j, ev.low ≤ j → j < i → holds j = .ok (q = .all)) ∧
        holds i = .error err := by
  obtain ⟨hlow, hhigh⟩ := ev.domain_interpretation depth
  simp only [decide_eq_error_iff, Interpretation.domainSize, hlow, hhigh, Int64.le_iff_toInt_le,
    Int64.lt_iff_toInt_lt]
  constructor
  · rintro ⟨i, hi, hlt, hopen, herr⟩
    have hint : (Int64.ofInt i).toInt = i :=
      toInt_ofInt_between ev.low ev.high hi (by omega)
    refine ⟨Int64.ofInt i, by omega, by omega, fun j hj hji => ?_, herr⟩
    rw [← Int64.ofInt_toInt j]
    exact hopen j.toInt hj (by omega)
  · rintro ⟨i, hi, hle, hopen, herr⟩
    refine ⟨i.toInt, hi, by omega, fun j hj hji => ?_, by rwa [Int64.ofInt_toInt]⟩
    have hint : (Int64.ofInt j).toInt = j :=
      toInt_ofInt_between ev.low i hj (by omega)
    exact hopen (Int64.ofInt j) (by omega) (by omega)

/-- A call that fails makes its caller fail, with the same error. No error is caught anywhere. -/
theorem Calls.answer_eq_error (h : ev.Calls t u) (hu : ev.answer u = .error err) :
    ev.answer t = .error err := by
  rw [answer_eq]
  cases h with
  | operand =>
      rw [answer_eq] at hu
      simp only [Expr.evalWith, hu]
      rfl
  | @left _ op =>
      rw [answer_eq] at hu
      by_cases ho : op = .and ∨ op = .or ∨ op = .implies
      · simp only [Expr.evalWith_connective ho, hu]
        rfl
      · simp only [Expr.evalWith_operator ho, hu]
        rfl
  | array | updated =>
      rw [answer_eq] at hu
      simp only [Expr.evalWith, hu]
      rfl
  | @right _ op _ _ _ _ hl hopen =>
      rw [answer_eq] at hu hl
      by_cases ho : op = .and ∨ op = .or ∨ op = .implies
      -- the right operand is called only if the left one leaves the connective open
      · obtain ⟨a, rfl, ha⟩ := hopen ho
        simp only [Expr.evalWith_connective ho]
        refine bind_eq_error_iff.2 (Or.inr ⟨_, hl, bind_eq_error_iff.2 (Or.inr ⟨a, rfl, ?_⟩)⟩)
        simp only [ha, hu]
        rfl
      · simp only [Expr.evalWith_operator ho, hl, hu]
        rfl
  | @body _ q v body env i hlow hhigh hopen =>
      rw [answer_eq] at hu
      simp only [answer_eq] at hopen
      simp only [Expr.evalWith, (ev.domain_interpretation _).1]
      rw [domain_eq_error_iff.2 ⟨i, hlow, hhigh, fun j hj hji => by rw [hopen j hj hji]; rfl,
        by rw [hu]; rfl⟩]
      rfl
  | index ha =>
      rw [answer_eq] at hu ha
      simp only [Expr.evalWith, hu, ha]
      rfl
  | position ha =>
      rw [answer_eq] at hu ha
      simp only [Expr.evalWith, hu, ha]
      rfl
  | value ha hi =>
      rw [answer_eq] at hu ha hi
      simp only [Expr.evalWith, hu, ha, hi]
      rfl
  | argument hq he =>
      simp only [Expr.evalWith, predicate?_interpretation, hq]
      rw [evalArgs_eq_error_iff.2 ⟨_, he, hu⟩]
      rfl
  | @expansion depth _ _ _ scope q hq hscope =>
      have hexpand : (ev.interpretation (depth + 1)).expand q scope = .error err := by
        rw [expand_interpretation, hu]
        rfl
      simp only [Expr.evalWith, predicate?_interpretation, hq]
      exact bind_eq_error_iff.2 (Or.inr ⟨scope, hscope, bind_eq_error_iff.2 (Or.inl hexpand)⟩)

/-! ## Calls end

A call goes to a part, to a length, or to the body of a predicate with one expansion fewer left.
The induction is on the number of expansions first and on the expression second. -/

theorem Turn.mem {es : List Expr} {e : Expr} (h : ev.Turn depth env es e) : e ∈ es := by
  induction h with
  | head => exact List.mem_cons_self
  | tail _ _ ih => exact List.mem_cons_of_mem _ ih

/-- What is passed is an argument or the length of one. -/
theorem mem_passed {params : List Variable} {args : List Expr} {d : Expr}
    (h : d ∈ passed params args) : ∃ e ∈ args, d = e ∨ e.arrayLength? = some d := by
  induction args generalizing params with
  | nil => cases params <;> cases h
  | cons e es ih =>
      cases params with
      | nil => cases h
      | cons v vs =>
          rw [passed, List.mem_cons, List.mem_append] at h
          rcases h with h | h | h
          · exact ⟨e, List.mem_cons_self, Or.inl h⟩
          · split at h
            · exact ⟨e, List.mem_cons_self, Or.inr (Option.mem_toList.1 h)⟩
            · cases h
          · obtain ⟨a, ha, h⟩ := ih h
            exact ⟨a, List.mem_cons_of_mem _ ha, h⟩

/-- The calls of one depth end if those of the depth below do. They go to parts of an expression,
to its length, which is a part or a variable, and to bodies of predicates at the depth below. -/
theorem acc_of_below (hbelow : ∀ k, depth = k + 1 → ∀ e env,
    Acc (fun u t => ev.Calls t u) ⟨k, e, env⟩) (e : Expr) :
    (∀ env, Acc (fun u t => ev.Calls t u) ⟨depth, e, env⟩) ∧
      ∀ n, e.arrayLength? = some n → ∀ env, Acc (fun u t => ev.Calls t u) ⟨depth, n, env⟩ := by
  have hvar : ∀ v env, Acc (fun u t => ev.Calls t u) ⟨depth, .var v, env⟩ := by
    refine fun v env => ⟨_, fun u h => ?_⟩
    cases h
  induction e with
  | var v =>
      refine ⟨hvar v, fun n hn => ?_⟩
      obtain ⟨l, -, rfl⟩ := Option.map_eq_some_iff.1 hn
      exact hvar l
  | int n | float x | bool b =>
      refine ⟨fun env => ⟨_, fun u h => ?_⟩, fun n hn => ?_⟩
      · cases h
      · cases hn
  | unary op e ih =>
      refine ⟨fun env => ⟨_, fun u h => ?_⟩, fun n hn => ?_⟩
      · cases h with
        | operand => exact ih.1 env
      · cases hn
  | binary op l r ihl ihr =>
      refine ⟨fun env => ⟨_, fun u h => ?_⟩, fun n hn => ?_⟩
      · cases h with
        | left => exact ihl.1 env
        | right => exact ihr.1 env
      · cases hn
  | quant q v body ih =>
      refine ⟨fun env => ⟨_, fun u h => ?_⟩, fun n hn => ?_⟩
      · cases h with
        | body => exact ih.1 _
      · cases hn
  | read a i iha ihi =>
      refine ⟨fun env => ⟨_, fun u h => ?_⟩, fun n hn => ?_⟩
      · cases h with
        | array => exact iha.1 env
        | index => exact ihi.1 env
      · cases hn
  | update a i x n iha ihi ihx ihn =>
      refine ⟨fun env => ⟨_, fun u h => ?_⟩, fun m hm => ?_⟩
      · cases h with
        | updated => exact iha.1 env
        | position => exact ihi.1 env
        | value => exact ihx.1 env
      · cases hm
        exact ihn.1
  | call f args ty ih =>
      refine ⟨fun env => ⟨_, fun u h => ?_⟩, fun n hn => ?_⟩
      · cases h
      · cases hn
  | app name args ih =>
      refine ⟨fun env => ⟨_, fun u h => ?_⟩, fun n hn => ?_⟩
      · cases h with
        | argument hq he =>
            obtain ⟨a, ha, hd⟩ := mem_passed he.mem
            rcases hd with rfl | hd
            · exact (ih _ ha).1 env
            · exact (ih a ha).2 _ hd env
        -- the body of a predicate is no part of the expression, but is evaluated one level
        -- further down
        | expansion => exact hbelow _ rfl _ _
      · cases hn

/-- Calls do not go on forever. Each one goes to a part of the expression, or to the body of a
predicate at a smaller depth. -/
theorem wellFounded_calls (ev : Evaluator) : WellFounded fun u t => ev.Calls t u := by
  have hacc : ∀ depth e env, Acc (fun u t => ev.Calls t u) ⟨depth, e, env⟩ := by
    intro depth
    induction depth with
    | zero => exact fun e => (acc_of_below (fun k hk => by cases hk) e).1
    | succ depth ih =>
        refine fun e => (acc_of_below (fun k hk => ?_) e).1
        cases hk
        exact ih
  exact ⟨fun t => hacc t.depth t.expr t.env⟩

end Evaluator

end Pathwise
