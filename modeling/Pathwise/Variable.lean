import Pathwise.Ty

/-!
# Pathwise.Variable

Typed names. Every array variable is paired with an integer variable that holds its length;
quantified variables are bound inside expressions and never assigned.

The pairing is by name: the kind of an array carries the name of its length variable, and
`Variable.length?` makes the variable of it. The name can be any. A fresh array gets the name that
`Variable.lengthName` derives from its own, but a program that is read in may let two arrays share
a length, or name as a length what is also a parameter. Some results hold only where neither
happens, and say so.

Equality of variables is equality of name, type and kind. The program, its conditions and the
encoding refer to variables by name alone, so that two variables of one name and different types
are a source of trouble that the theory has to exclude by hypotheses.
-/

namespace Pathwise

/-- What a variable is used for. The kind is kept apart from the type: nothing forces a variable
of array type to be of kind `array`, and validation does not ask for it. -/
inductive VariableKind where
  /-- An ordinary program variable. -/
  | scalar
  /-- An array; `length` names its paired length variable. -/
  | array (length : String)
  /-- Bound by a quantifier. -/
  | quantified
  deriving Repr, DecidableEq, Inhabited

/-- A typed name. -/
structure Variable where
  /-- The name, which identifies the variable inside a function. -/
  name : String
  ty : Ty
  kind : VariableKind
  deriving Repr, DecidableEq, Inhabited

namespace Variable

/-- A program variable that is no array. -/
def scalar (name : String) (ty : Ty) : Variable := ⟨name, ty, .scalar⟩

/-- The name of the length variable that a fresh array of this name gets. -/
def lengthName (name : String) : String := name ++ "$length"

/-- An array variable with its length variable. -/
def array (name : String) (elem : ScalarTy) : Variable :=
  ⟨name, .array elem, .array (lengthName name)⟩

/-- A variable for a quantifier to bind. -/
def quantified (name : String) : Variable := ⟨name, .int, .quantified⟩

/-- The length variable of an array. It is a scalar, so it has no length of its own. -/
def length? (v : Variable) : Option Variable :=
  match v.kind with
  | .array length => some (scalar length .int)
  | _ => none

def isArray (v : Variable) : Bool :=
  match v.kind with
  | .array _ => true
  | _ => false

/-- Whether the variable may be assigned. Quantified variables belong to expressions and have no
place in a state. -/
def isAssignable (v : Variable) : Bool := v.kind ≠ .quantified

/-- Name and type, as in a declaration. -/
def text (v : Variable) : String := v.name ++ ": " ++ v.ty.text

def textList (vs : List Variable) : String := ", ".intercalate (vs.map text)

end Variable

end Pathwise
