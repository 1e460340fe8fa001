import Pathwise.Path.Error
import Pathwise.Program.Validate

/-!
# Pathwise.Path.Binding

The substitutions that assignments and calls stand for. An array is always replaced together with
its length.

An assignment `v := e` becomes the substitution of `e` for `v`, and a call binds parameters to
arguments by the same step repeated. Types are compared here once more, though validation has done
so: substitutions are made for any program, and one that changes types would turn formulas into
something else.

An array variable has a length, and an expression that is assigned to it must have one too. Array
expressions that type checking lets through always do, except where a variable of array type is
not of array kind.
-/

namespace Pathwise

/-- A variable may only stand for an expression of its own type. -/
def Variable.expectType (v : Variable) (found : Ty) : Except VerifyError Unit :=
  require (v.ty = found) (.substitution v.name v.ty found)

/-- The substitution for `v := e`, with the length if `v` is an array. -/
def Variable.assignment (v : Variable) (e : Expr) : Except VerifyError Subst := do
  v.expectType e.ty
  let σ := SortedMap.empty.insert v.name e
  match v.length? with
  | none => return σ
  | some l =>
    let n ← getOr e.arrayLength? (.substitution l.name .int e.ty)
    return σ.insert l.name n

/-- Extend a substitution by the assignments of a list of variables to a list of expressions, in
turn, as far as both lists go. Where two of them replace the same name, the later one counts. -/
def Subst.assignMany (σ : Subst) : List (Variable × Expr) → Except VerifyError Subst
  | [] => .ok σ
  | (v, e) :: rest => do
    let τ ← v.assignment e
    Subst.assignMany (σ.union τ) rest

/-- The substitution of arguments for the parameters of a function, lengths included. -/
def Function.bind (callee : Function) (args : List Expr) : Except VerifyError Subst := do
  require (callee.parameters.length = args.length)
    (.arity callee.name .arguments callee.parameters.length args.length)
  Subst.assignMany .empty (callee.parameters.zip args)

end Pathwise
