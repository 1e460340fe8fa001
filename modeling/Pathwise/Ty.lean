/-!
# Pathwise.Ty

The value types of programs: three scalar types, and arrays of scalars indexed by integers.

Arrays do not nest, and the types say so: what an array may hold is a `ScalarTy`, a type of its
own beside `Ty`, so that an array of arrays cannot be written down. `ScalarTy.toTy` is the way
back, and the two lemmas at the end state what every proof about elements needs to know of it,
that an element is never an array.

`Ty.isNumeric` collects the types on which arithmetic and order are defined. Equality is defined
on all of them, and Boolean connectives on one only; the rules are in `Pathwise.Typing`.
-/

namespace Pathwise

/-- A scalar type, which is also what an array may hold. That arrays hold no arrays is thus a
matter of types, and no check is needed for it. -/
inductive ScalarTy where
  | int
  | float
  | bool
  deriving Repr, DecidableEq, Inhabited

/-- The type of a variable or expression. -/
inductive Ty where
  | int
  | float
  | bool
  /-- Arrays are indexed by `int`. -/
  | array (elem : ScalarTy)
  deriving Repr, DecidableEq, Inhabited

/-- A scalar type as a type. -/
def ScalarTy.toTy : ScalarTy → Ty
  | .int => .int
  | .float => .float
  | .bool => .bool

def ScalarTy.text : ScalarTy → String
  | .int => "int"
  | .float => "float"
  | .bool => "bool"

namespace Ty

/-- The types that arithmetic and order apply to. -/
def isNumeric : Ty → Bool
  | int | float => true
  | _ => false

def isArray : Ty → Bool
  | array _ => true
  | _ => false

/-- What an array of this type holds; `none` for scalars. -/
def element? : Ty → Option Ty
  | array elem => some elem.toTy
  | _ => none

/-- The name of a type: an array is its element type followed by brackets. The readers of written
programs know types by these names. -/
def text : Ty → String
  | int => "int"
  | float => "float"
  | bool => "bool"
  | array elem => elem.text ++ "[]"

/-- Arrays do not nest: an element has no elements. -/
@[simp] theorem element?_toTy (s : ScalarTy) : s.toTy.element? = none := by cases s <;> rfl

/-- The elements of arrays are no arrays, so reading an array gives a scalar. -/
@[simp] theorem isArray_toTy (s : ScalarTy) : s.toTy.isArray = false := by cases s <;> rfl

end Ty

end Pathwise
