import Pathwise.Expr.Basic
import Pathwise.SortedMap

/-!
# Pathwise.Expr.Free

The names an expression depends on.

* `Expr.freeVariables` are the variables that occur outside of quantifiers binding their name. A
  predicate application passes the length of each array argument along with it, so the variables
  of those length terms count as well; a length term is read on its own, whatever the quantifiers
  around the application bind.
* `Expr.functionSymbols` are the uninterpreted symbols with their types at first use.
* `Expr.predicateNames` are the predicates applied, in order of first use.

The three tables are what a solver has to be told before it can read the encoding of an
expression, and they are walked into an accumulator in the order in which things occur. The order
matters where a name occurs twice: the type of a variable is that of its last occurrence, and the
types of a symbol are those of its first.

What is in the table of free variables is worked out in `Pathwise.Proofs.FreeVariables`, and how
it compares with a plain definition of free occurrence in `Pathwise.Proofs.Occurrences`.
-/

namespace Pathwise.Expr

mutual

/-- Insert into `out` the variables of the expression that are free under the bound
names `bound`, with their types; a later occurrence overwrites the type of an
earlier one. -/
def collectFree (bound : List String) (out : SortedMap String Ty) : Expr → SortedMap String Ty
  | var v => if v.name ∈ bound then out else out.insert v.name v.ty
  | int _ | float _ | bool _ => out
  | unary _ e => collectFree bound out e
  | binary _ l r => collectFree bound (collectFree bound out l) r
  | quant _ v body => collectFree (v.name :: bound) out body
  | read array index => collectFree bound (collectFree bound out array) index
  | update array index value length =>
    collectFree bound (collectFree bound (collectFree bound (collectFree bound out array) index)
      value) length
  | call _ args _ => collectFreeList bound out args
  | app _ args => collectFreeArgs bound out args

/-- The walk of `collectFree` over the arguments of a function term. -/
def collectFreeList (bound : List String) (out : SortedMap String Ty) :
    List Expr → SortedMap String Ty
  | [] => out
  | e :: es => collectFreeList bound (collectFree bound out e) es

/-- The walk of `collectFree` over the arguments of a predicate: after each argument come the free
variables of the length passed along with it. -/
def collectFreeArgs (bound : List String) (out : SortedMap String Ty) :
    List Expr → SortedMap String Ty
  | [] => out
  | e :: es =>
    let out := collectFree bound out e
    let out := if e.ty.isArray then out.union (collectLength e) else out
    collectFreeArgs bound out es

/-- The free variables of the length term of an array expression. The names bound around the
expression are not known here, so that a variable of the length counts as free even under a
quantifier over its name. -/
def collectLength : Expr → SortedMap String Ty
  | var v => match v.length? with
    | some l => SortedMap.empty.insert l.name l.ty
    | none => .empty
  | update _ _ _ length => collectFree [] .empty length
  | _ => .empty

end

/-- The free variables with their types, in name order. -/
def freeVariables (e : Expr) : SortedMap String Ty := collectFree [] .empty e

/-- Whether the variable `name` occurs free. -/
def hasFree (e : Expr) (name : String) : Bool := e.freeVariables.contains name

/-- Argument and result types of a function symbol. -/
abbrev SymbolTypes := List Ty × Ty

/-- The uninterpreted function symbols in name order, with the types of their first
use. -/
def functionSymbols (e : Expr) : SortedMap String SymbolTypes :=
  e.visit.foldl (fun out e => match e with
    | call f args ty => out.insertIfNew f (args.map Expr.ty, ty)
    | _ => out) .empty

/-- The predicates applied in the expression, in order of first use. -/
def predicateNames (e : Expr) : List String :=
  e.visit.foldl (fun out e => match e with
    | app p _ => if p ∈ out then out else out ++ [p]
    | _ => out) []

end Pathwise.Expr
