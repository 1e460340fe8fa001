import Pathwise.Path.Binding
import Pathwise.Path.Basic

/-!
# Pathwise.Path.Wlp

The weakest liberal precondition of a path, and with it the path's verification condition.

The obligation is pushed backwards through the statements, last statement first. A call is
reasoned about through the callee's contract alone: its results are fresh variables that the
postcondition constrains, and those variables take the place of the targets in what follows the
call.

* An assignment is a substitution, and a store into an array is the assignment of an updated
  array.
* An assertion becomes a conjunct, an assumption a premise.
* A call becomes a premise too: the postcondition of the callee, about the arguments and the fresh
  results, implies what has to hold of the fresh results.

Fresh variables are numbered along a path and named after the target they stand for. The names are
not checked against those of the program, so they are fresh only as long as no variable of the
program is named like one of them; `Pathwise.Proofs.Fresh` and `Pathwise.Proofs.Havoc` deal with
that.
-/

namespace Pathwise

/-- Name of the `k`-th fresh variable of a path, standing for a call's result in
`target`. -/
def freshName (target : String) (k : Nat) : String := target ++ "$post" ++ toString k

/-- A fresh variable for the value that `target` receives from a call. -/
def Variable.fresh (target : Variable) (k : Nat) : Variable :=
  match target.kind, target.ty with
  | .array _, .array elem => .array (freshName target.name k) elem
  | _, ty => .scalar (freshName target.name k) ty

/-- The substitutions that a call stands for: in the callee's postcondition, and in what
follows the call. -/
structure CallEffect where
  /-- Parameters by arguments and results by fresh variables, with lengths. -/
  contract : Subst
  /-- Targets by fresh variables, with lengths. -/
  havoc : Subst

/-- Bind results and targets to fresh variables, numbered from `k + 1` on. -/
def CallEffect.bindResults (k : Nat) (c : CallEffect) :
    List (Variable × Variable) → Except VerifyError CallEffect
  | [] => .ok c
  | (result, target) :: rest => do
    target.expectType result.ty
    let fresh := Expr.var (target.fresh (k + 1))
    let contract ← result.assignment fresh
    let havoc ← target.assignment fresh
    bindResults (k + 1) ⟨c.contract.union contract, c.havoc.union havoc⟩ rest

/-- A formula on its way backwards, with the number of fresh variables introduced so
far. -/
structure Running where
  formula : Expr
  /-- How many fresh variables there are. -/
  fresh : Nat

namespace Program

/-- Push a formula backwards over a call. -/
def foldCall (p : Program) (targets : List Variable) (id : FunctionId) (args : List Expr)
    (r : Running) : Except VerifyError Running := do
  let callee ← getOr (p.function? id) (.unknownFunction id)
  require (callee.results.length = targets.length)
    (.arity callee.name .results callee.results.length targets.length)
  let parameters ← callee.bind args
  let effect ← CallEffect.bindResults r.fresh ⟨parameters, .empty⟩ (callee.results.zip targets)
  let post ← getOr callee.postcondition? (.graph callee.name .missingPostcondition)
  return ⟨.implies (post.substAll effect.contract) (r.formula.substAll effect.havoc),
    r.fresh + targets.length⟩

/-- Push a formula backwards over a statement of function `f`. -/
def foldStatement (p : Program) (f : Function) (s : Statement) (r : Running) :
    Except VerifyError Running :=
  match s.action with
  | .assign target value => do
    let σ ← target.assignment value
    return { r with formula := r.formula.substAll σ }
  | .store array index value =>
    match array.length?, array.ty.element? with
    | some length, some elem =>
      if elem ≠ value.ty then
        .error (.substitution (array.name ++ "[" ++ index.text ++ "]") elem value.ty)
      else
        let updated := Expr.update (.var array) index value (.var length)
        .ok { r with formula := r.formula.subst array.name updated }
    | _, _ => .error (.graph f.name (.storeToScalar array.name))
  | .call targets id args => p.foldCall targets id args r
  | .assert condition => .ok { r with formula := .and condition r.formula }
  | .assume condition => .ok { r with formula := .implies condition r.formula }

/-- Push a formula backwards over a list of statements. The list is in the order of execution, so
the rest of it comes first. -/
def foldStatements (p : Program) (f : Function) :
    List Statement → Running → Except VerifyError Running
  | [], r => .ok r
  | s :: ss, r => do p.foldStatement f s (← p.foldStatements f ss r)

/-- The verification condition of a path of `f`: what is known at its start implies the
weakest liberal precondition of its obligation. -/
def condition (p : Program) (f : Function) (path : BasicPath) : Except VerifyError Expr := do
  let r ← p.foldStatements f (path.segments.flatMap Segment.statements) ⟨path.obligation, 0⟩
  return .implies path.known r.formula

end Program

end Pathwise
