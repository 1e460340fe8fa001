import Pathwise.Variable
import Pathwise.Decimal.Format

/-!
# Pathwise.Expr.Basic

Symbolic expressions over program variables: the terms of programs and the formulas of their
annotations alike.

* `Expr.ty` is the static type, read off without checking;
* `Expr.arrayLength?` is the length term that belongs to an array expression;
* `Expr.text` is the infix form used in messages, listings and reports;
* `Expr.visit` lists all subexpressions, outermost first;
* `Expr.same` compares two expressions, with float literals compared as numbers.

Array-valued expressions are array variables and updates of them, and an update carries the length
of the array it updates. An array thus always has a length term at hand, which is passed along
wherever a predicate is applied to the array.

The functions that go through a tree are mutual recursions over expressions and lists of them, so
that they compute; a lemma per function says that its list version is a map or a flat map, and the
theory works with those. `Expr.children` gives the direct parts, for statements that treat all
kinds of nodes alike.
-/

namespace Pathwise

inductive UnOp where
  | neg
  | not
  deriving Repr, DecidableEq, Inhabited

inductive BinOp where
  | add | sub | mul | div | mod
  | lt | le | gt | ge | eq | ne
  | and | or | implies | iff
  deriving Repr, DecidableEq, Inhabited

namespace BinOp

/-- The operators whose result has the type of their operands. -/
def isArithmetic : BinOp → Bool
  | add | sub | mul | div | mod => true
  | _ => false

/-- The operators that compare two values. -/
def isComparison : BinOp → Bool
  | lt | le | gt | ge | eq | ne => true
  | _ => false

/-- The operators on truth values. -/
def isConnective : BinOp → Bool
  | and | or | implies | iff => true
  | _ => false

/-- The infix symbol. -/
def symbol : BinOp → String
  | add => "+"
  | sub => "-"
  | mul => "*"
  | div => "/"
  | mod => "%"
  | lt => "<"
  | le => "<="
  | gt => ">"
  | ge => ">="
  | eq => "=="
  | ne => "!="
  | and => "&&"
  | or => "||"
  | implies => "==>"
  | iff => "<==>"

end BinOp

inductive Quantifier where
  | all
  | any
  deriving Repr, DecidableEq, Inhabited

def Quantifier.word : Quantifier → String
  | .all => "forall"
  | .any => "exists"

/-- An expression. There is one type for terms and formulas: a formula is an expression of type
`bool`, and connectives, comparisons and quantifiers can stand wherever a truth value can. -/
inductive Expr where
  | var (v : Variable)
  | int (n : Int64)
  | float (x : Float)
  | bool (b : Bool)
  | unary (op : UnOp) (e : Expr)
  | binary (op : BinOp) (l r : Expr)
  /-- Quantification over an integer variable. -/
  | quant (q : Quantifier) (v : Variable) (body : Expr)
  /-- The element of `array` at `index`. -/
  | read (array index : Expr)
  /-- The array with `index` mapped to `value`; `length` is the length of `array`. -/
  | update (array index value length : Expr)
  /-- A term of an uninterpreted function symbol. -/
  | call (function : String) (args : List Expr) (ty : Ty)
  /-- A predicate of the program applied to arguments. -/
  | app (predicate : String) (args : List Expr)
  deriving Inhabited

namespace Expr

def and (l r : Expr) : Expr := .binary .and l r

def implies (l r : Expr) : Expr := .binary .implies l r

/-- The conjunction of a list, nested to the left; `true` for the empty list. -/
def conjoin : List Expr → Expr
  | [] => .bool true
  | e :: es => es.foldl and e

/-- The static type. It is right for well-typed expressions and defined for all:
an arithmetic expression has the type of its left operand, and reading from
something that is no array gives the type of that thing. -/
def ty : Expr → Ty
  | var v => v.ty
  | int _ => .int
  | float _ => .float
  | bool _ => .bool
  | unary .neg e => e.ty
  | unary .not _ => .bool
  | binary op l _ => if op.isArithmetic then l.ty else .bool
  | quant _ _ _ => .bool
  | read array _ => array.ty.element?.getD array.ty
  | update array _ _ _ => array.ty
  | call _ _ ty => ty
  | app _ _ => .bool

/-- The length term of an array expression. Variables bring their length variable, and updates the
term they carry; nothing else is an array in a well-typed expression but a function term, which
has no length. -/
def arrayLength? : Expr → Option Expr
  | var v => v.length?.map var
  | update _ _ _ length => some length
  | _ => none

/-- The direct subexpressions, left to right. -/
def children : Expr → List Expr
  | var _ | int _ | float _ | bool _ => []
  | unary _ e => [e]
  | binary _ l r => [l, r]
  | quant _ _ body => [body]
  | read array index => [array, index]
  | update array index value length => [array, index, value, length]
  | call _ args _ => args
  | app _ args => args

mutual

/-- All subexpressions, each before its own parts, left to right. -/
def visit : Expr → List Expr
  | var v => [var v]
  | int n => [int n]
  | float x => [float x]
  | bool b => [bool b]
  | unary op e => unary op e :: visit e
  | binary op l r => binary op l r :: (visit l ++ visit r)
  | quant q v body => quant q v body :: visit body
  | read array index => read array index :: (visit array ++ visit index)
  | update array index value length =>
    update array index value length ::
      (visit array ++ visit index ++ visit value ++ visit length)
  | call f args ty => call f args ty :: visitList args
  | app p args => app p args :: visitList args

/-- All subexpressions of the expressions of a list. -/
def visitList : List Expr → List Expr
  | [] => []
  | e :: es => visit e ++ visitList es

end

/-- All subexpressions of a list, in terms of those of its items. -/
theorem visitList_eq_flatMap (es : List Expr) : visitList es = es.flatMap visit := by
  induction es with
  | nil => rfl
  | cons e es ih => simp [visitList, ih]

mutual

/-- The infix form. An update shows index and value but not the length. -/
def text : Expr → String
  | var v => v.name
  | int n => toString n.toInt
  | float x => floatText x
  | bool b => toString b
  | unary .neg e => "-" ++ text e
  | unary .not e => "!" ++ text e
  | binary op l r => "(" ++ text l ++ " " ++ op.symbol ++ " " ++ text r ++ ")"
  | quant q v body => "(" ++ q.word ++ " " ++ v.name ++ ". " ++ text body ++ ")"
  | read array index => text array ++ "[" ++ text index ++ "]"
  | update array index value _ =>
    text array ++ "\x7b" ++ text index ++ " <- " ++ text value ++ "\x7d"
  | call f args _ => f ++ "(" ++ ", ".intercalate (textList args) ++ ")"
  | app p args => p ++ "(" ++ ", ".intercalate (textList args) ++ ")"

def textList : List Expr → List String
  | [] => []
  | e :: es => text e :: textList es

end

mutual

/-- Sameness of expressions, with float literals compared as numbers: the two zeros
are the same and a NaN differs from itself. -/
def same : Expr → Expr → Bool
  | var v, var w => v = w
  | int m, int n => m = n
  | float x, float y => x == y
  | bool a, bool b => a = b
  | unary o e, unary p f => o = p && same e f
  | binary o l r, binary p l' r' => o = p && same l l' && same r r'
  | quant q v e, quant q' v' e' => q = q' && v = v' && same e e'
  | read a i, read b j => same a b && same i j
  | update a i v l, update b j w m => same a b && same i j && same v w && same l m
  | call f as t, call g bs u => f = g && sameList as bs && t = u
  | app p as, app q bs => p = q && sameList as bs
  | _, _ => false

/-- Sameness of two lists, item by item. -/
def sameList : List Expr → List Expr → Bool
  | [], [] => true
  | e :: es, f :: fs => same e f && sameList es fs
  | _, _ => false

end

end Expr

end Pathwise
