import Pathwise.Program.Basic
import Pathwise.Value

/-!
# Pathwise.Eval

Concrete evaluation of expressions.

Integers are 64-bit and every operation that leaves the range is an error; division and remainder
are Euclidean, as in SMT-LIB. Quantifiers range over a finite interval of integers, so a
quantified formula that evaluates to true has been tried on that interval only. Connectives
evaluate their right operand only when the left one does not decide.

A predicate application evaluates the predicate's body in a scope that holds its arguments and
nothing else. Bodies may apply further predicates, so evaluation comes in two layers:
`Expr.evalWith` recurses over an expression and leaves the bodies to a parameter, and
`Evaluator.evalTo` ties the knot up to a number of nested expansions.

The split is also the shape of the proofs. What holds of evaluation is shown for `Expr.evalWith`
by induction on the expression, under an assumption about expansions, and then for
`Evaluator.evalTo` by induction on the number of expansions, which supplies the assumption.
`Evaluator.eval` fixes that number so high that it is not met unless predicates refer to one
another in a circle.

`Evaluator.replay` evaluates a formula under a model that a solver has given, so that a
counterexample can be checked without the solver.
-/

namespace Pathwise

/-- The values of variables by name. The length of an array is a variable of its own. -/
abbrev Valuation := SortedMap String Value

/-- What an operation asks of its operands. -/
inductive Expectation where
  | number
  | bool
  | int
  | array
  /-- Two operands of the same fitting type. -/
  | matchingOperands
  deriving DecidableEq, Repr

def Expectation.text : Expectation → String
  | number => "number"
  | bool => "bool"
  | int => "int"
  | array => "array"
  | matchingOperands => "matching operands"

/-- Why an expression has no value. -/
inductive EvalError where
  /-- A variable has no value. -/
  | unbound (name : String)
  /-- The value of an expression is of the wrong type. -/
  | type (e : Expr) (expected : Expectation) (found : String)
  /-- Division by zero. -/
  | divisionByZero (e : Expr)
  /-- The result is no 64-bit integer. -/
  | overflow (e : Expr)
  /-- A term of an uninterpreted function. -/
  | uninterpreted (function : String)
  /-- The program has no such predicate. -/
  | unknownPredicate (name : String)
  /-- A model's text for a variable is no value of its type. -/
  | model (name text : String)
  /-- Too many nested predicate expansions. -/
  | tooDeep (predicate : String)

def EvalError.message : EvalError → String
  | unbound name => s!"variable `{name}` has no value"
  | type e expected found => s!"expected {expected.text} in `{e.text}`, found {found}"
  | divisionByZero e => s!"division by zero in `{e.text}`"
  | overflow e => s!"integer overflow in `{e.text}`"
  | uninterpreted function => s!"function `{function}` has no interpretation"
  | unknownPredicate name => s!"unknown predicate `{name}`"
  | model name text => s!"cannot read value of `{name}` from `{text}`"
  | tooDeep predicate => s!"predicate `{predicate}` is expanded too deeply"

/-- Results of evaluation. -/
abbrev EvalM := Except EvalError

namespace Value

/-- The truth value that the expression `e` evaluated to. -/
def asBool (e : Expr) : Value → EvalM Bool
  | bool b => .ok b
  | v => .error (.type e .bool v.tyName)

/-- The integer that the expression `e` evaluated to. -/
def asInt (e : Expr) : Value → EvalM Int64
  | int n => .ok n
  | v => .error (.type e .int v.tyName)

/-- The array that the expression `e` evaluated to. -/
def asArray (e : Expr) : Value → EvalM (TotalMap Value)
  | array m => .ok m
  | v => .error (.type e .array v.tyName)

end Value

/-! ## Operators

Operators act on values. They are given the expression that they are part of, for errors only: the
expression that an error names is the one whose operation failed, and not the one that was asked
for. -/

/-- An integer result of the expression `e`, which must fit into 64 bits. -/
def fitting (e : Expr) (n : Int) : EvalM Value :=
  match int64? n with
  | some n => .ok (.int n)
  | none => .error (.overflow e)

/-- A unary operation, as the expression `e`. -/
def UnOp.apply (op : UnOp) (e : Expr) (v : Value) : EvalM Value :=
  match op, v with
  | .neg, .int n => fitting e (-n.toInt)
  | .neg, .float x => .ok (.float (-x))
  | .not, .bool b => .ok (.bool !b)
  | .neg, v => .error (.type e .number v.tyName)
  | .not, v => .error (.type e .bool v.tyName)

/-- A binary operation on integers other than equality and inequality, as the expression `e`;
`none` if there is no such operation. A remainder is refused where the quotient does not fit,
although the remainder itself would be zero. -/
def BinOp.onInts (op : BinOp) (e : Expr) (a b : Int64) : Option (EvalM Value) :=
  match op with
  | .add => some (fitting e (a.toInt + b.toInt))
  | .sub => some (fitting e (a.toInt - b.toInt))
  | .mul => some (fitting e (a.toInt * b.toInt))
  | .div => some (if b = 0 then .error (.divisionByZero e) else fitting e (a.toInt / b.toInt))
  | .mod => some (
      if b = 0 then .error (.divisionByZero e)
      else match int64? (a.toInt / b.toInt) with
        | none => .error (.overflow e)
        | some _ => fitting e (a.toInt % b.toInt))
  | .lt => some (.ok (.bool (a.toInt < b.toInt)))
  | .le => some (.ok (.bool (a.toInt ≤ b.toInt)))
  | .gt => some (.ok (.bool (b.toInt < a.toInt)))
  | .ge => some (.ok (.bool (b.toInt ≤ a.toInt)))
  | _ => none

/-- A binary operation on floats other than equality and inequality, as the expression
`e`; `none` if there is no such operation. -/
def BinOp.onFloats (op : BinOp) (e : Expr) (a b : Float) : Option (EvalM Value) :=
  match op with
  | .add => some (.ok (.float (a + b)))
  | .sub => some (.ok (.float (a - b)))
  | .mul => some (.ok (.float (a * b)))
  | .div => some (if b == 0.0 then .error (.divisionByZero e) else .ok (.float (a / b)))
  | .lt => some (.ok (.bool (a < b)))
  | .le => some (.ok (.bool (a ≤ b)))
  | .gt => some (.ok (.bool (b < a)))
  | .ge => some (.ok (.bool (b ≤ a)))
  | _ => none

/-- A binary operation on two values, as the expression `e`. Equality and inequality
apply to all values; everything else to two integers, two floats, or, for
equivalence, two truth values. -/
def BinOp.apply (op : BinOp) (e : Expr) (l r : Value) : EvalM Value :=
  let mismatch : EvalM Value := .error (.type e .matchingOperands r.tyName)
  match op, l, r with
  | .eq, l, r => .ok (.bool (l == r))
  | .ne, l, r => .ok (.bool (l != r))
  | .iff, .bool a, .bool b => .ok (.bool (a = b))
  | op, .int a, .int b => (op.onInts e a b).getD mismatch
  | op, .float a, .float b => (op.onFloats e a b).getD mismatch
  | _, _, _ => mismatch

/-- Try a formula on `count` consecutive integers from `first` on, up to the first one that
decides the quantifier. Integers after that one are not tried, so an error there goes unnoticed.
-/
def Quantifier.decide (q : Quantifier) (holds : Int64 → EvalM Bool) :
    (first : Int) → (count : Nat) → EvalM Bool
  | _, 0 => .ok (q = .all)
  | i, n + 1 => do
    let b ← holds (Int64.ofInt i)
    match q, b with
    | .all, false => .ok false
    | .any, true => .ok true
    | _, _ => q.decide holds (i + 1) n

/-! ## Expressions

The recursion over an expression, with everything that is not in the expression as a parameter:
which predicates there are, what their bodies give, and where quantifiers look. -/

/-- What evaluation depends on besides the values of variables. -/
structure Interpretation where
  /-- The predicate of a name. -/
  predicate? : String → Option Predicate
  /-- The truth value of a predicate's body in a scope. -/
  expand : Predicate → Valuation → EvalM Bool
  /-- The smallest integer that quantifiers range over. -/
  low : Int64
  /-- The largest integer that quantifiers range over. -/
  high : Int64

/-- How many integers quantifiers range over. -/
def Interpretation.domainSize (I : Interpretation) : Nat :=
  (I.high.toInt - I.low.toInt + 1).toNat

def Valuation.read (env : Valuation) (name : String) : EvalM Value :=
  match env.find? name with
  | some v => .ok v
  | none => .error (.unbound name)

namespace Expr

mutual

/-- The value of an expression. -/
def evalWith (I : Interpretation) (env : Valuation) : Expr → EvalM Value
  | var v => env.read v.name
  | int n => .ok (.int n)
  | float x => .ok (.float x)
  | bool b => .ok (.bool b)
  | unary op e => do op.apply (unary op e) (← evalWith I env e)
  | binary .and l r => do
    -- the right operand of a connective is evaluated only if the left one leaves the result open
    let a ← (← evalWith I env l).asBool l
    if a then return .bool (← (← evalWith I env r).asBool r) else return .bool false
  | binary .or l r => do
    let a ← (← evalWith I env l).asBool l
    if a then return .bool true else return .bool (← (← evalWith I env r).asBool r)
  | binary .implies l r => do
    let a ← (← evalWith I env l).asBool l
    if a then return .bool (← (← evalWith I env r).asBool r) else return .bool true
  | binary op l r => do
    let a ← evalWith I env l
    let b ← evalWith I env r
    op.apply (binary op l r) a b
  | quant q v body => do
    let holds (i : Int64) : EvalM Bool := do
      (← evalWith I (env.insert v.name (.int i)) body).asBool body
    return .bool (← q.decide holds I.low.toInt I.domainSize)
  | read array index => do
    let m ← (← evalWith I env array).asArray array
    let i ← (← evalWith I env index).asInt index
    return m.select i
  | update array index value _ => do
    let m ← (← evalWith I env array).asArray array
    let i ← (← evalWith I env index).asInt index
    let v ← evalWith I env value
    return .array (m.store i v)
  | call f _ _ => .error (.uninterpreted f)
  | app name args =>
    match I.predicate? name with
    | none => .error (.unknownPredicate name)
    | some q => do
      let scope ← evalArgs I env q.parameters .empty args
      return .bool (← I.expand q scope)

/-- Bind parameters to the values of arguments, as far as both lists go. An array
parameter whose argument has a length binds its length variable too. -/
def evalArgs (I : Interpretation) (env : Valuation) (params : List Variable)
    (scope : Valuation) : List Expr → EvalM Valuation
  | [] => .ok scope
  | e :: es =>
    match params with
    | [] => .ok scope
    | v :: vs => do
      let x ← evalWith I env e
      let scope := scope.insert v.name x
      match v.length?, evalLength I env e with
      | some l, some length =>
        let n ← length
        evalArgs I env vs (scope.insert l.name n) es
      | _, _ => evalArgs I env vs scope es

/-- The value of the length of an array expression, if it has a length. -/
def evalLength (I : Interpretation) (env : Valuation) : Expr → Option (EvalM Value)
  | var v => v.length?.map fun l => env.read l.name
  | update _ _ _ length => some (evalWith I env length)
  | _ => none

end

end Expr

/-! ## Programs

Predicates are expanded as often as they are applied. A nested application counts as one more
level, and evaluation gives up at a limit, so that it ends even if predicates call one another in
a circle. -/

/-- An evaluator for the predicates of a program. -/
structure Evaluator where
  /-- The predicates; of several with one name the last counts. -/
  predicates : List Predicate
  /-- The smallest integer that quantifiers range over. -/
  low : Int64 := -8
  /-- The largest integer that quantifiers range over. -/
  high : Int64 := 8

namespace Evaluator

def predicate? (ev : Evaluator) (name : String) : Option Predicate :=
  ev.predicates.reverse.find? fun q => q.name = name

/-- The value of an expression with at most `depth` nested predicate expansions. At depth zero an
application is an error, even if its body would need no further expansion. -/
def evalTo (ev : Evaluator) : (depth : Nat) → Expr → Valuation → EvalM Value
  | 0, e, env =>
    e.evalWith ⟨ev.predicate?, fun q _ => .error (.tooDeep q.name), ev.low, ev.high⟩ env
  | depth + 1, e, env =>
    let expand (q : Predicate) (scope : Valuation) : EvalM Bool := do
      (← ev.evalTo depth q.body scope).asBool q.body
    e.evalWith ⟨ev.predicate?, expand, ev.low, ev.high⟩ env

/-- Evaluation gives up after this many nested expansions. Without recursion among the
predicates their number is enough; recursive predicates that end get a million. -/
def expansionLimit (ev : Evaluator) : Nat := max 1000000 ev.predicates.length

def eval (ev : Evaluator) (e : Expr) (env : Valuation) : EvalM Value :=
  ev.evalTo ev.expansionLimit e env

def evalBool (ev : Evaluator) (e : Expr) (env : Valuation) : EvalM Bool := do
  (← ev.eval e env).asBool e

/-- The valuation of the free variables of a formula that a model describes. A variable
that the model leaves out is zero, as solvers omit variables that do not matter. -/
def valuation (model : SortedMap String String) : List (String × Ty) → Valuation →
    EvalM Valuation
  | [], env => .ok env
  | (name, ty) :: rest, env =>
    match model.find? name with
    | none => valuation model rest (env.insert name (.zero ty))
    | some text =>
      match Value.parseScalar? text ty with
      | some v => valuation model rest (env.insert name v)
      | none => .error (.model name text)

/-- The truth value of a formula under a model of its variables. -/
def replay (ev : Evaluator) (e : Expr) (model : SortedMap String String) : EvalM Bool := do
  ev.evalBool e (← valuation model e.freeVariables.entries .empty)

end Evaluator

end Pathwise
