import Pathwise.Decimal.Format
import Pathwise.TotalMap
import Pathwise.Ty

/-!
# Pathwise.Value

The values that expressions evaluate to.

Equality of values (`Value.same`, the instance behind `==`) compares floats as numbers: the two
zeros are equal, a NaN equals nothing. It is therefore no equality in the sense of logic.

Values of arrays are total maps, which hold values again; an array of arrays is thus a value,
though no expression of any type has it. `Value.zero` is what a variable is taken to be when a
model is silent about it.

`Value.parseScalar?` reads a scalar as solvers print it in models. Minus is an application there,
and so is a quotient of reals. Any number of applications of minus may be nested, with blanks
between them.
-/

namespace Pathwise

/-- A value. Integers are words of 64 bits, floats have double precision. -/
inductive Value where
  | int (n : Int64)
  | float (x : Float)
  | bool (b : Bool)
  | array (m : TotalMap Value)

namespace Value

instance : Inhabited Value := ⟨.bool false⟩

mutual

/-- Equality of values. Arrays are compared entry by entry, which is right because a total map has
one representation. -/
def same : Value → Value → Bool
  | int m, int n => m = n
  | float x, float y => x == y
  | bool a, bool b => a = b
  | array ⟨⟨es⟩, d⟩, array ⟨⟨fs⟩, e⟩ => sameEntries es fs && same d e
  | _, _ => false

/-- Equality of entries, one by one. -/
def sameEntries : List (Int64 × Value) → List (Int64 × Value) → Bool
  | [], [] => true
  | (i, v) :: es, (j, w) :: fs => i = j && same v w && sameEntries es fs
  | _, _ => false

end

instance : BEq Value := ⟨same⟩

/-- The name of a value's type; all arrays share one. -/
def tyName : Value → String
  | int _ => "int"
  | float _ => "float"
  | bool _ => "bool"
  | array _ => "array"

mutual

/-- The text of a value. An array lists its explicit entries and then its default, as
in `[0: 5, 2: -7, _: 0]`. -/
def text : Value → String
  | int n => toString n.toInt
  | float x => floatText x
  | bool b => toString b
  | array ⟨⟨es⟩, d⟩ => "[" ++ textEntries es ++ "_: " ++ text d ++ "]"

/-- The texts of entries, each followed by a comma. -/
def textEntries : List (Int64 × Value) → String
  | [] => ""
  | (i, v) :: es => toString i.toInt ++ ": " ++ text v ++ ", " ++ textEntries es

end

/-- The zero of a scalar type. -/
def zeroScalar : ScalarTy → Value
  | .int => .int 0
  | .float => .float 0.0
  | .bool => .bool false

/-- The zero of a type; an array of zeros for arrays. -/
def zero : Ty → Value
  | .int => .int 0
  | .float => .float 0.0
  | .bool => .bool false
  | .array elem => .array (.constant (zeroScalar elem))

/-- What stands between the marker `(op` at the front and the parenthesis at the end
of a text. -/
def operands? (op : Char) (cs : List Char) : Option (List Char) :=
  match Text.after? ['(', op] cs with
  | none => none
  | some rest =>
    match rest.getLast? with
    | some ')' => some rest.dropLast
    | _ => none

/-- A value with the opposite sign, if it is a number whose opposite fits. -/
def negate? : Value → Option Value
  | int n => (int64? (-n.toInt)).map int
  | float x => some (float (-x))
  | _ => none

/-- The quotient of the first two words of a text. -/
def quotient? (cs : List Char) : Option Float :=
  match Text.words cs with
  | num :: den :: _ => do
    let num ← parseFloat? num
    let den ← parseFloat? den
    return num / den
  | _ => none

/-- A scalar without a minus around it. -/
def parsePlain? (cs : List Char) : Ty → Option Value
  | .int => (parseInt? cs).bind int64? |>.map int
  | .bool =>
    if cs = "true".toList then some (bool true)
    else if cs = "false".toList then some (bool false)
    else none
  | .float =>
    match operands? '/' cs with
    | some inner => (quotient? inner).map float
    | none => (parseFloat? cs).map float
  | .array _ => none

/-- A scalar below at most `fuel` applications of minus. -/
def parseNested? (ty : Ty) : (fuel : Nat) → List Char → Option Value
  | 0, _ => none
  | fuel + 1, cs =>
    let cs := Text.trimWhile Text.isBlank cs
    match operands? '-' cs with
    | some inner => (parseNested? ty fuel inner).bind negate?
    | none => parsePlain? cs ty

/-- Read a scalar of a given type, for instance `5`, `(- 5)`, `true`, `1.5`,
`(/ 1.0 4.0)` or `(- (/ 1.0 4.0))`. Each minus takes three characters, so the length is
fuel enough. -/
def parseScalar? (text : String) (ty : Ty) : Option Value :=
  parseNested? ty (text.toList.length + 1) text.toList

end Value

end Pathwise
