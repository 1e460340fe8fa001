import Pathwise.Proofs.Congruence
import Pathwise.Proofs.Evaluation

/-!
# Pathwise.Proofs.EvalCongruence

Two expressions of one shape compared through their evaluation.

A congruence between answers of the evaluator goes through an operator if it also relates the
errors of the operator, which hold the expression to blame (`Congruence.Blames`). Then the answers
for two expressions are related as soon as those for their parts are, one lemma for each kind of
expression. The interpretations and the valuations may differ as well, so that an induction over
expressions is left with the variables, the bound ones among them, and the expansion of
predicates.

Two comparisons are instances. An expression and the same one after a substitution have the same
outcome up to the expression in an error (`Pathwise.Proofs.EvalSubst`), and one expression under
two numbers of allowed expansions has the same value, as long as neither number runs out
(`Pathwise.Proofs.Expansion`). What counts as the same is chosen by the congruence, and the lemmas
here do not depend on it.
-/

namespace Pathwise

namespace Congruence

/-- The errors of operators are related that hold these two expressions. An error names the
expression where it arose, and on two sides this may be two expressions. -/
structure Blames (R : Congruence EvalM EvalM) (e e' : Expr) : Prop where
  type {α : Type} (expected : Expectation) (found : String) :
    R.Rel (.error (.type e expected found) : EvalM α) (.error (.type e' expected found))
  divisionByZero : R.Rel (.error (.divisionByZero e) : EvalM Value) (.error (.divisionByZero e'))
  overflow : R.Rel (.error (.overflow e) : EvalM Value) (.error (.overflow e'))

variable {R : Congruence EvalM EvalM}

/-! ## Operators

Each operator gives a value or an error about the expression that it is part of. Whatever the
values are, two such outcomes are related if the errors are. -/

namespace Blames

variable {e e' : Expr}

theorem asBool (h : R.Blames e e') (v : Value) : R.Rel (v.asBool e) (v.asBool e') := by
  cases v with
  | bool b => exact R.pure b
  | _ => exact h.type _ _

theorem asInt (h : R.Blames e e') (v : Value) : R.Rel (v.asInt e) (v.asInt e') := by
  cases v with
  | int n => exact R.pure n
  | _ => exact h.type _ _

theorem asArray (h : R.Blames e e') (v : Value) : R.Rel (v.asArray e) (v.asArray e') := by
  cases v with
  | array m => exact R.pure m
  | _ => exact h.type _ _

theorem fitting (h : R.Blames e e') (n : Int) :
    R.Rel (Pathwise.fitting e n) (Pathwise.fitting e' n) := by
  unfold Pathwise.fitting
  split
  · exact R.pure _
  · exact h.overflow

theorem applyUnary (h : R.Blames e e') (op : UnOp) (v : Value) :
    R.Rel (op.apply e v) (op.apply e' v) := by
  cases op with
  | neg =>
      cases v with
      | int n => exact h.fitting _
      | float x => exact R.pure _
      | _ => exact h.type _ _
  | not =>
      cases v with
      | bool b => exact R.pure _
      | _ => exact h.type _ _

theorem onInts (h : R.Blames e e') (op : BinOp) (a b : Int64) :
    Option.Rel R.Rel (op.onInts e a b) (op.onInts e' a b) := by
  cases op with
  | add | sub | mul => exact .some (h.fitting _)
  | div =>
      refine .some ?_
      split
      · exact h.divisionByZero
      · exact h.fitting _
  | mod =>
      refine .some ?_
      split
      · exact h.divisionByZero
      · split
        · exact h.overflow
        · exact h.fitting _
  | lt | le | gt | ge => exact .some (R.pure _)
  | _ => exact .none

theorem onFloats (h : R.Blames e e') (op : BinOp) (a b : Float) :
    Option.Rel R.Rel (op.onFloats e a b) (op.onFloats e' a b) := by
  cases op with
  | add | sub | mul | lt | le | gt | ge => exact .some (R.pure _)
  | div =>
      refine .some ?_
      split
      · exact h.divisionByZero
      · exact R.pure _
  | _ => exact .none

theorem getD {x y : Option (EvalM Value)} (h : Option.Rel R.Rel x y) {d d' : EvalM Value}
    (hd : R.Rel d d') : R.Rel (x.getD d) (y.getD d') := by
  cases h with
  | some h => exact h
  | none => exact hd

theorem apply (h : R.Blames e e') (op : BinOp) (x y : Value) :
    R.Rel (op.apply e x y) (op.apply e' x y) := by
  unfold BinOp.apply
  dsimp only
  split
  · exact R.pure _
  · exact R.pure _
  · exact R.pure _
  · exact getD (h.onInts _ _ _) (h.type _ _)
  · exact getD (h.onFloats _ _ _) (h.type _ _)
  · exact h.type _ _

end Blames

/-- A quantifier whose instances are related stops at the same integer on both sides. -/
theorem decide (q : Quantifier) {f g : Int64 → EvalM Bool} (h : ∀ i, R.Rel (f i) (g i))
    (first : Int) (count : Nat) : R.Rel (q.decide f first count) (q.decide g first count) := by
  induction count generalizing first with
  | zero => exact R.pure _
  | succ n ih =>
      rw [Quantifier.decide, Quantifier.decide]
      refine R.bind (h _) fun b => ?_
      cases q <;> cases b
      · exact R.pure _
      · exact ih _
      · exact ih _
      · exact R.pure _

/-! ## Expressions

One lemma per kind of expression. The hypotheses are the relations between the parts, and the
errors that the operators at the root may raise. -/

section Expressions

variable {I J : Interpretation} {env env' : Valuation}

theorem unary {op : UnOp} {e e' : Expr} (hb : R.Blames (Expr.unary op e) (Expr.unary op e'))
    (h : R.Rel (e.evalWith I env) (e'.evalWith J env')) :
    R.Rel ((Expr.unary op e).evalWith I env) ((Expr.unary op e').evalWith J env') := by
  rw [Expr.evalWith, Expr.evalWith]
  exact R.bind h fun x => hb.applyUnary op x

/-- A connective looks at its left operand first, and at the right one on both sides or on
neither. -/
theorem binary {op : BinOp} {l l' r r' : Expr} (hbl : R.Blames l l') (hbr : R.Blames r r')
    (hb : R.Blames (Expr.binary op l r) (Expr.binary op l' r'))
    (hl : R.Rel (l.evalWith I env) (l'.evalWith J env'))
    (hr : R.Rel (r.evalWith I env) (r'.evalWith J env')) :
    R.Rel ((Expr.binary op l r).evalWith I env) ((Expr.binary op l' r').evalWith J env') := by
  by_cases ho : op = .and ∨ op = .or ∨ op = .implies
  · rw [Expr.evalWith_connective ho, Expr.evalWith_connective ho]
    refine R.bind hl fun x => R.bind (hbl.asBool x) fun a => ?_
    cases op.settled? a with
    | some c => exact R.pure _
    | none => exact R.bind hr fun y => R.bind (hbr.asBool y) fun b => R.pure _
  · rw [Expr.evalWith_operator ho, Expr.evalWith_operator ho]
    exact R.bind hl fun x => R.bind hr fun y => hb.apply op x y

/-- The quantifiers range over the same integers, and the bodies are related for each of them. -/
theorem quant {q : Quantifier} {v : Variable} {body body' : Expr} (hb : R.Blames body body')
    (hlow : I.low = J.low) (hhigh : I.high = J.high)
    (h : ∀ i, R.Rel (body.evalWith I (env.insert v.name (.int i)))
      (body'.evalWith J (env'.insert v.name (.int i)))) :
    R.Rel ((Expr.quant q v body).evalWith I env) ((Expr.quant q v body').evalWith J env') := by
  rw [Expr.evalWith, Expr.evalWith, Interpretation.domainSize, Interpretation.domainSize, hlow,
    hhigh]
  refine R.bind (decide q (fun i => ?_) _ _) fun b => R.pure _
  exact R.bind (h i) fun x => hb.asBool x

theorem read {a a' i i' : Expr} (hba : R.Blames a a') (hbi : R.Blames i i')
    (ha : R.Rel (a.evalWith I env) (a'.evalWith J env'))
    (hi : R.Rel (i.evalWith I env) (i'.evalWith J env')) :
    R.Rel ((Expr.read a i).evalWith I env) ((Expr.read a' i').evalWith J env') := by
  rw [Expr.evalWith, Expr.evalWith]
  refine R.bind ha fun x => R.bind (hba.asArray x) fun m => ?_
  exact R.bind hi fun y => R.bind (hbi.asInt y) fun k => R.pure _

theorem update {a a' i i' x x' n n' : Expr} (hba : R.Blames a a') (hbi : R.Blames i i')
    (ha : R.Rel (a.evalWith I env) (a'.evalWith J env'))
    (hi : R.Rel (i.evalWith I env) (i'.evalWith J env'))
    (hx : R.Rel (x.evalWith I env) (x'.evalWith J env')) :
    R.Rel ((Expr.update a i x n).evalWith I env) ((Expr.update a' i' x' n').evalWith J env') := by
  rw [Expr.evalWith, Expr.evalWith]
  refine R.bind ha fun y => R.bind (hba.asArray y) fun m => ?_
  refine R.bind hi fun z => R.bind (hbi.asInt z) fun k => ?_
  exact R.bind hx fun w => R.pure _

/-- Arguments of a predicate that are related, and their lengths with them. One side has a length
where the other has. -/
theorem evalArgs {args args' : List Expr}
    (h : List.Forall₂ (fun e e' => R.Rel (e.evalWith I env) (e'.evalWith J env') ∧
      Option.Rel R.Rel (e.evalLength I env) (e'.evalLength J env')) args args')
    (params : List Variable) (scope : Valuation) :
    R.Rel (Expr.evalArgs I env params scope args) (Expr.evalArgs J env' params scope args') := by
  induction h generalizing params scope with
  | nil => cases params <;> exact R.pure scope
  | @cons e e' args args' he _ ih =>
      cases params with
      | nil => exact R.pure scope
      | cons v vs =>
          rw [Expr.evalArgs, Expr.evalArgs]
          refine R.bind he.1 fun x => ?_
          have hlength := he.2
          generalize e.evalLength I env = length at hlength ⊢
          generalize e'.evalLength J env' = length' at hlength ⊢
          cases v.length? with
          | none => exact ih vs _
          | some l =>
              cases hlength with
              | none => exact ih vs _
              | some hlength => exact R.bind hlength fun n => ih vs _

theorem app {name : String} {args args' : List Expr} {q : Predicate}
    (hI : I.predicate? name = some q) (hJ : J.predicate? name = some q)
    (hexpand : ∀ scope, R.Rel (I.expand q scope) (J.expand q scope))
    (h : List.Forall₂ (fun e e' => R.Rel (e.evalWith I env) (e'.evalWith J env') ∧
      Option.Rel R.Rel (e.evalLength I env) (e'.evalLength J env')) args args') :
    R.Rel ((Expr.app name args).evalWith I env) ((Expr.app name args').evalWith J env') := by
  rw [Expr.evalWith, Expr.evalWith, hI, hJ]
  exact R.bind (evalArgs h _ _) fun scope => R.bind (hexpand scope) fun b => R.pure _

end Expressions

end Congruence

end Pathwise
