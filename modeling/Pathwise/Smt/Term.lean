import Pathwise.Expr.Basic

/-!
# Pathwise.Smt.Term

Sorts and terms of SMT-LIB, and their text.

Terms are kept as they are built: a conjunction of one operand is a term of its own and only its
text drops the connective. Names are written as they are, without quoting.

Numbers need some care in the text. SMT-LIB has no negative literals, so a negative number is an
application of minus, and a real literal always has a point. Infinite floats and NaN have texts
too, which solvers do not understand; such a query fails, and the answer to it is that nothing is
known.
-/

namespace Pathwise.Smt

inductive SortExpr where
  | bool
  | int
  | real
  /-- Arrays from `index` to `elem`. -/
  | array (index elem : SortExpr)
  deriving Repr, DecidableEq, Inhabited

def SortExpr.text : SortExpr → String
  | bool => "Bool"
  | int => "Int"
  | real => "Real"
  | array index elem => "(Array " ++ index.text ++ " " ++ elem.text ++ ")"

/-- The operators written with exactly two operands. -/
inductive Op where
  | implies
  /-- Equality of truth values. -/
  | iff
  | eq
  | add | sub | mul
  /-- Integer division. -/
  | intDiv
  | intMod
  /-- Division of reals. -/
  | realDiv
  | lt | le | gt | ge
  | select
  deriving Repr, DecidableEq, Inhabited

def Op.symbol : Op → String
  | implies => "=>"
  | iff => "="
  | eq => "="
  | add => "+"
  | sub => "-"
  | mul => "*"
  | intDiv => "div"
  | intMod => "mod"
  | realDiv => "/"
  | lt => "<"
  | le => "<="
  | gt => ">"
  | ge => ">="
  | select => "select"

/-- A variable with its sort, as quantifiers and definitions bind it. -/
abbrev SortedVar := String × SortExpr

inductive Term where
  | bool (b : Bool)
  | int (n : Int)
  | real (x : Float)
  /-- A constant or variable. -/
  | const (name : String)
  | not (t : Term)
  | neg (t : Term)
  | and (ts : List Term)
  | or (ts : List Term)
  | distinct (ts : List Term)
  | ite (c t e : Term)
  | binary (op : Op) (l r : Term)
  | store (array index value : Term)
  | quant (q : Quantifier) (vars : List SortedVar) (body : Term)
  | app (name : String) (args : List Term)
  deriving Inhabited

/-- Real literals are always positional. -/
def realLayout : Decimal.Layout := ⟨fun _ => true⟩

/-- A literal has a fractional part, also the texts that are no numerals. -/
def withFraction (text : String) : String := if '.' ∈ text.toList then text else text ++ ".0"

/-- The text of a real literal. There are no negative literals: minus is an
application. A zero never has a sign. -/
def realText (x : Float) : String :=
  let magnitude := withFraction (magnitudeText realLayout x)
  if signIsMinus x && x != 0.0 then "(- " ++ magnitude ++ ")" else magnitude

/-- The text of an integer literal. -/
def intText (n : Int) : String :=
  if n < 0 then "(- " ++ toString n.natAbs ++ ")" else toString n.natAbs

/-- Sorted variables in parentheses. -/
def varsText (vars : List SortedVar) : String :=
  "(" ++ " ".intercalate (vars.map fun (x, s) => "(" ++ x ++ " " ++ s.text ++ ")") ++ ")"

/-- An operator before its operands. -/
def application (symbol : String) (operands : List String) : String :=
  "(" ++ symbol ++ " " ++ " ".intercalate operands ++ ")"

/-- A connective of any number of operands: its unit for none, the operand itself for
one. -/
def connective (symbol unit : String) : List String → String
  | [] => unit
  | [t] => t
  | ts => application symbol ts

namespace Term

mutual

def text : Term → String
  | bool b => toString b
  | int n => intText n
  | real x => realText x
  | const name => name
  | not t => application "not" [text t]
  | neg t => application "-" [text t]
  | and ts => connective "and" "true" (textList ts)
  | or ts => connective "or" "false" (textList ts)
  | distinct ts => application "distinct" (textList ts)
  | ite c t e => application "ite" [text c, text t, text e]
  | binary op l r => application op.symbol [text l, text r]
  | store array index value => application "store" [text array, text index, text value]
  | quant q vars body => application q.word [varsText vars, text body]
  | app name [] => name
  | app name (t :: ts) => application name (text t :: textList ts)

def textList : List Term → List String
  | [] => []
  | t :: ts => text t :: textList ts

end

end Term

end Pathwise.Smt
