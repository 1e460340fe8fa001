import Pathwise.Program.Basic

/-!
# Pathwise.Typing

Type checking of expressions against the predicates of a program.

`Program.check` is the type of an expression or the first fault met, subexpressions before the
expression itself and from left to right. Variables carry their own types, so no environment is
needed; the program is there for its predicates, whose parameters say what the arguments have to
be.

Operators are typed by three small functions (`UnOp.result?`, `BinOp.appliesTo`, `BinOp.result`).
Both operands of a binary operator have the same type, whatever the operator, and only the type of
the result differs.

There is no type for an array inside a function term: an uninterpreted symbol may take arrays and
may not return one, since an array needs a length.

The theory of checked expressions begins in `Pathwise.Proofs.Typing`, where success of the check
is taken apart node by node.
-/

namespace Pathwise

/-- Why an expression has no type. The constructors follow the order of the checks, and each
carries what its message mentions. -/
inductive TypeFault where
  /-- The operand of a unary operator has the wrong type. -/
  | operand (e : Expr) (found : Ty)
  /-- The operands of a binary operator have different types. -/
  | operands (e : Expr) (left right : Ty)
  /-- A binary operator does not apply to operands of this type. -/
  | operator (op : BinOp) (found : Ty)
  /-- A quantifier binds something else than a quantified integer. -/
  | notQuantified (name : String)
  /-- The body of a quantifier is no formula. -/
  | quantifierBody (found : Ty)
  /-- Something that is no array is read or updated. -/
  | notArray (e : Expr)
  /-- An array is read at something that is no integer. -/
  | index (e : Expr) (found : Ty)
  /-- Index or length of an update is no integer. -/
  | updateIndex (e : Expr)
  /-- An update stores a value of the wrong type. -/
  | storedValue (found expected : Ty)
  /-- A function term has an array type. -/
  | arrayResult (function : String)
  /-- The program has no such predicate. -/
  | unknownPredicate (name : String)
  /-- A predicate is applied to the wrong number of arguments. -/
  | argumentCount (predicate : String) (expected found : Nat)
  /-- A predicate is applied to an argument of the wrong type. -/
  | argument (arg : Expr) (predicate : String) (found expected : Ty)

def TypeFault.message : TypeFault → String
  | operand e found => s!"operand of `{e.text}` has type {found.text}"
  | operands e left right => s!"operands of `{e.text}` have types {left.text} and {right.text}"
  | operator op found => s!"operator `{op.symbol}` does not apply to {found.text}"
  | notQuantified name => s!"`{name}` is not a quantified int variable"
  | quantifierBody found => s!"quantifier body has type {found.text}"
  | notArray e => s!"`{e.text}` is not an array"
  | index e found => s!"index `{e.text}` has type {found.text}"
  | updateIndex e => s!"index and length of `{e.text}` must be int"
  | storedValue found expected => s!"stored value has type {found.text}, expected {expected.text}"
  | arrayResult function => s!"function term `{function}` returns an array"
  | unknownPredicate name => s!"unknown predicate `{name}`"
  | argumentCount predicate expected found =>
    s!"`{predicate}` takes {expected} arguments, {found} given"
  | argument arg predicate found expected =>
    s!"argument `{arg.text}` of `{predicate}` has type {found.text}, expected {expected.text}"

/-- The type of a unary operation on an operand of type `t`. -/
def UnOp.result? (op : UnOp) (t : Ty) : Option Ty :=
  match op with
  | .neg => if t.isNumeric then some t else none
  | .not => if t = .bool then some .bool else none

/-- Whether a binary operator applies to two operands of type `t`. Arrays are compared by no
operator, not even by equality. -/
def BinOp.appliesTo (op : BinOp) (t : Ty) : Bool :=
  match op with
  | .mod => t = .int
  | .add | .sub | .mul | .div => t.isNumeric
  | .eq | .ne => !t.isArray
  | .lt | .le | .gt | .ge => t.isNumeric
  | .and | .or | .implies | .iff => t = .bool

/-- The type of a binary operation on operands of type `t`. -/
def BinOp.result (op : BinOp) (t : Ty) : Ty := if op.isArithmetic then t else .bool

namespace Program

mutual

/-- The type of an expression, or the first fault in it. A quantifier is rejected before its body
is looked at, and a predicate by its number of arguments before they are. -/
def check (p : Program) : Expr → Except TypeFault Ty
  | .var v => .ok v.ty
  | .int _ => .ok .int
  | .float _ => .ok .float
  | .bool _ => .ok .bool
  | .unary op e => do
    let t ← check p e
    match op.result? t with
    | some r => .ok r
    | none => .error (.operand (.unary op e) t)
  | .binary op l r => do
    let lt ← check p l
    let rt ← check p r
    if lt ≠ rt then .error (.operands (.binary op l r) lt rt)
    else if !op.appliesTo lt then .error (.operator op lt)
    else .ok (op.result lt)
  | .quant _ v body =>
    if v.kind ≠ .quantified ∨ v.ty ≠ .int then .error (.notQuantified v.name)
    else do
      let t ← check p body
      if t = .bool then .ok .bool else .error (.quantifierBody t)
  | .read array index => do
    let t ← check p array
    match t.element? with
    | none => .error (.notArray array)
    | some elem =>
      let i ← check p index
      if i = .int then .ok elem else .error (.index index i)
  | .update array index value length => do
    let t ← check p array
    match t.element? with
    | none => .error (.notArray array)
    | some elem =>
      let i ← check p index
      -- the length is only looked at once the index is known to be right
      if i ≠ .int then .error (.updateIndex (.update array index value length))
      else
        let n ← check p length
        if n ≠ .int then .error (.updateIndex (.update array index value length))
        else
          let s ← check p value
          if s ≠ elem then .error (.storedValue s elem) else .ok t
  | .call f args ty => do
    checkList p args
    if ty.isArray then .error (.arrayResult f) else .ok ty
  | .app name args =>
    match p.predicate? name with
    | none => .error (.unknownPredicate name)
    | some q =>
      if q.parameters.length ≠ args.length then
        .error (.argumentCount name q.parameters.length args.length)
      else do
        checkArgs p name q.parameters args
        .ok .bool

/-- Check the arguments of a function term in turn. -/
def checkList (p : Program) : List Expr → Except TypeFault Unit
  | [] => .ok ()
  | e :: es => do
    let _ ← check p e
    checkList p es

/-- Check the arguments of a predicate against its parameters in turn. -/
def checkArgs (p : Program) (name : String) (params : List Variable) :
    List Expr → Except TypeFault Unit
  | [] => .ok ()
  | e :: es =>
    match params with
    | [] => .ok ()
    | v :: vs => do
      let t ← check p e
      if t ≠ v.ty then .error (.argument e name t v.ty)
      else checkArgs p name vs es

end

end Program

end Pathwise
