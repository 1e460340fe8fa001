import Pathwise.Program.Basic
import Pathwise.Smt.Script

/-!
# Pathwise.Smt.Encode

Expressions as SMT-LIB terms.

* Floats become reals; arrays become arrays over the integers, with the length in a constant of
  its own.
* An array update becomes `store`, which does not need the length.
* A predicate becomes a defined function whose parameters are followed by one integer per array
  parameter, and an application passes the lengths of its array arguments in the same order.

The encoding does no checking and is defined for all expressions. Which expressions it turns into
well-sorted terms is the matter of `Pathwise.Proofs.Sorting`, and what the terms mean that of
`Pathwise.Proofs.Denotation` and `Pathwise.Proofs.Evaluation`.

Names go through unchanged. A variable that a quantifier binds and one that is free may share a
name, as they may in expressions, and the same one of them is meant.
-/

namespace Pathwise

open Smt

def ScalarTy.sort : ScalarTy → SortExpr
  | .int => .int
  | .float => .real
  | .bool => .bool

def Ty.sort : Ty → SortExpr
  | .int => .int
  | .float => .real
  | .bool => .bool
  | .array elem => .array .int elem.sort

/-- A binary operation on encoded operands of the given type, which tells integer
division from that of reals. -/
def BinOp.encode (op : BinOp) (operand : Ty) (l r : Term) : Term :=
  match op with
  | .add => .binary .add l r
  | .sub => .binary .sub l r
  | .mul => .binary .mul l r
  | .div => .binary (if operand = .float then .realDiv else .intDiv) l r
  | .mod => .binary .intMod l r
  | .lt => .binary .lt l r
  | .le => .binary .le l r
  | .gt => .binary .gt l r
  | .ge => .binary .ge l r
  | .eq => .binary .eq l r
  | .ne => .not (.binary .eq l r)
  | .and => .and [l, r]
  | .or => .or [l, r]
  | .implies => .binary .implies l r
  | .iff => .binary .iff l r

namespace Expr

mutual

/-- The term of an expression. -/
def encode : Expr → Term
  | var v => .const v.name
  | int n => .int n.toInt
  | float x => .real x
  | bool b => .bool b
  | unary .neg e => .neg (encode e)
  | unary .not e => .not (encode e)
  | binary op l r => op.encode l.ty (encode l) (encode r)
  | quant q v body => .quant q [(v.name, .int)] (encode body)
  | read array index => .binary .select (encode array) (encode index)
  | update array index value _ => .store (encode array) (encode index) (encode value)
  | call f args _ => .app f (encodeList args)
  | app p args => .app p (encodeList args ++ encodeLengths args)

def encodeList : List Expr → List Term
  | [] => []
  | e :: es => encode e :: encodeList es

/-- The terms of the lengths that go along with the array-typed expressions of a
list. -/
def encodeLengths : List Expr → List Term
  | [] => []
  | e :: es => (if e.ty.isArray then encodeLength e else []) ++ encodeLengths es

/-- The term of the length of an array expression, if it has one. -/
def encodeLength : Expr → List Term
  | var v => (v.length?.map fun l => Term.const l.name).toList
  | update _ _ _ length => [encode length]
  | _ => []

end

end Expr

/-- The declaration of a function symbol. -/
def declareSymbol (name : String) (types : Expr.SymbolTypes) : Command :=
  .declareFun name (types.1.map Ty.sort) types.2.sort

/-- Declarations of the free variables and the function symbols of an expression, in
name order. -/
def Expr.declarations (e : Expr) : List Command :=
  (e.freeVariables.entries.map fun (x, t) => .declareConst x t.sort) ++
    e.functionSymbols.entries.map fun (f, types) => declareSymbol f types

/-- The definition of a predicate: its parameters, then the lengths of its arrays. -/
def Predicate.definition (q : Predicate) : Command :=
  .defineFun q.name
    ((q.parameters.map fun v => (v.name, v.ty.sort)) ++
      (q.parameters.filterMap Variable.length?).map fun l => (l.name, .int))
    .bool q.body.encode

end Pathwise
