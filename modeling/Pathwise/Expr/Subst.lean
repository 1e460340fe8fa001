import Pathwise.Expr.Free

/-!
# Pathwise.Expr.Subst

Simultaneous substitution of expressions for variables, by name.

Only free occurrences are replaced: below a quantifier the bound name is withheld from the
substitution. Bound names are not renamed, so a replacement may be captured; programs keep
quantified names apart from all other names.

`Expr.substUnder` is the one recursion. It takes a partial function from names and not a finite
table, so that single replacement (`Expr.subst`), simultaneous replacement (`Expr.substAll`) and
the substitutions that the theory composes are all instances of it, and each law is proved once.

The length of an array variable has no place of its own in the tree. To replace an array together
with its length, a substitution has an entry for each; `Pathwise.Path.Binding` builds such
substitutions.
-/

namespace Pathwise

/-- A finite substitution: replacements by variable name. Types play no part in it, and two
variables of one name are replaced by the same expression. -/
abbrev Subst := SortedMap String Expr

namespace Expr

mutual

/-- Replace the free variables that `σ` has a replacement for, where the names in
`bound` are bound from outside. -/
def substUnder (σ : String → Option Expr) (bound : List String) : Expr → Expr
  | var v => if v.name ∈ bound then var v else (σ v.name).getD (var v)
  | int n => int n
  | float x => float x
  | bool b => bool b
  | unary op e => unary op (substUnder σ bound e)
  | binary op l r => binary op (substUnder σ bound l) (substUnder σ bound r)
  | quant q v body => quant q v (substUnder σ (v.name :: bound) body)
  | read array index => read (substUnder σ bound array) (substUnder σ bound index)
  | update array index value length =>
    update (substUnder σ bound array) (substUnder σ bound index) (substUnder σ bound value)
      (substUnder σ bound length)
  | call f args ty => call f (substListUnder σ bound args) ty
  | app p args => app p (substListUnder σ bound args)

/-- Apply `substUnder` to every item of a list. -/
def substListUnder (σ : String → Option Expr) (bound : List String) : List Expr → List Expr
  | [] => []
  | e :: es => substUnder σ bound e :: substListUnder σ bound es

end

/-- Substitution in a list is substitution in its items. -/
theorem substListUnder_eq_map (σ : String → Option Expr) (bound : List String) (es : List Expr) :
    substListUnder σ bound es = es.map (substUnder σ bound) := by
  induction es with
  | nil => rfl
  | cons e es ih => simp [substListUnder, ih]

/-- Replace every free variable that has a replacement in `σ`, all at once. -/
def substAll (σ : Subst) (e : Expr) : Expr := substUnder σ.find? [] e

/-- Replace the free occurrences of the variable `name`. -/
def subst (e : Expr) (name : String) (replacement : Expr) : Expr :=
  substUnder (fun x => if x = name then some replacement else none) [] e

end Expr

end Pathwise
