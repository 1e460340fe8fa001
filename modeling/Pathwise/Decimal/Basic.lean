import Pathwise.Text.Blank

/-!
# Pathwise.Decimal.Basic

Decimal numerals as exact values: a sign, a coefficient and a power of ten.

* `Decimal.toFloat` is the binary float nearest to the numeral, infinite beyond the range and zero
  below it;
* `Decimal.split?` reads the digits of a numeral off the front of a text, the piece that every
  numeral syntax of the library shares;
* `parseFloat?` reads a float as solvers and model files write it;
* `parseInt?` and `int64?` read integers, first as such and then as words of 64 bits.

Numerals are read in two steps, text to exact value and exact value to float. The syntaxes differ
in what they let stand on either side of a point or after a letter `e`, and the two ways to round
(this module and `Pathwise.Decimal.Scaled`) differ in the float, so each combination is a
composition and none is a function of its own.
-/

namespace Pathwise

/-- The number `± coefficient · 10 ^ exponent`. Zero keeps its sign, as it does among floats. One
number has many such forms, since zeros at the end of the coefficient can move into the exponent.
-/
structure Decimal where
  /-- Whether the sign is minus. -/
  negative : Bool
  /-- The digits, read as a natural number. -/
  coefficient : Nat
  /-- The power of ten that scales the coefficient. -/
  exponent : Int
  deriving Repr, DecidableEq

namespace Decimal

/-- The value of a decimal digit. -/
def digitValue (c : Char) : Nat := c.toNat - '0'.toNat

/-- The number that a run of digits denotes. -/
def ofDigits (ds : List Char) : Nat := ds.foldl (fun n c => 10 * n + digitValue c) 0

/-- A power of ten. -/
def tenTo (n : Nat) : Nat := Nat.pow 10 n

/-- A power of two. -/
def twoTo (n : Nat) : Nat := Nat.pow 2 n

/-- The digits of a natural number, most significant first. -/
def digits (n : Nat) : List Char := Nat.toDigits 10 n

/-- Above this decimal magnitude every number rounds to infinity. -/
def magnitudeLimit : Int := 310

/-- Below this decimal magnitude every number rounds to zero. -/
def magnitudeFloor : Int := -330

/-- The nearest binary float, ties to even; infinite when the magnitude is too
large, zero when it is too small. Magnitudes far outside the range are decided by
the digit count alone, so a huge exponent costs nothing. -/
def toFloat (d : Decimal) : Float :=
  let magnitude : Float :=
    if d.coefficient = 0 then 0.0
    else
      let top := d.exponent + (digits d.coefficient).length
      if top > magnitudeLimit then 1.0 / 0.0
      else if top < magnitudeFloor then 0.0
      else Float.ofScientific d.coefficient (d.exponent < 0) d.exponent.natAbs
  if d.negative then -magnitude else magnitude

/-- The longest run of digits at the front, and what follows it. -/
def spanDigits (cs : List Char) : List Char × List Char :=
  (cs.takeWhile Char.isDigit, cs.dropWhile Char.isDigit)

/-- The parts of a numeral as they were written: the digits before the point, the
digits after it (`none` without a point), and the exponent (`none` without one). -/
structure Parts where
  /-- Digits before the point. -/
  whole : List Char
  /-- Digits after the point, if there is a point. -/
  fraction : Option (List Char)
  /-- The exponent, if one is written. -/
  exponent : Option Int

/-- The numeral that the parts denote, with the given sign. -/
def Parts.toDecimal (negative : Bool) (p : Parts) : Decimal :=
  let fraction := p.fraction.getD []
  { negative
    coefficient := ofDigits (p.whole ++ fraction)
    exponent := p.exponent.getD 0 - fraction.length }

/-- An optional sign at the front: whether it is a minus, and what follows. -/
def takeSign : List Char → Bool × List Char
  | '-' :: rest => (true, rest)
  | '+' :: rest => (false, rest)
  | cs => (false, cs)

/-- The exponent part at the front of `cs`: a letter `e` of either case, an optional
sign and at least one digit. A letter `e` without digits is malformed (`none`). -/
def takeExponent? (cs : List Char) : Option (Option Int × List Char) :=
  match cs with
  | c :: rest =>
    if c = 'e' || c = 'E' then
      let (negative, rest) := takeSign rest
      let (ds, rest) := spanDigits rest
      if ds.isEmpty then none
      else
        let n : Int := ofDigits ds
        some (some (if negative then -n else n), rest)
    else some (none, cs)
  | [] => some (none, [])

/-- Split the parts of an unsigned numeral off the front of `cs`. Neither side of
the point needs a digit here; syntaxes that do need one check the parts. -/
def split? (cs : List Char) : Option (Parts × List Char) := do
  let (whole, rest) := spanDigits cs
  let (fraction, rest) :=
    match rest with
    | '.' :: rest =>
      let (ds, rest) := spanDigits rest
      (some ds, rest)
    | _ => (none, rest)
  let (exponent, rest) ← takeExponent? rest
  return ({ whole, fraction, exponent }, rest)

/-- An unsigned numeral with at least one digit beside the point, and nothing
after it. -/
def parseMagnitude? (negative : Bool) (cs : List Char) : Option Decimal :=
  match split? cs with
  | some (p, []) =>
    if p.whole.isEmpty && (p.fraction.getD []).isEmpty then none
    else some (p.toDecimal negative)
  | _ => none

end Decimal

/-- Read a float: an optional sign, then `inf`, `infinity` or `nan` in any case, or
a numeral with an optional fraction and exponent. -/
def parseFloat? (cs : List Char) : Option Float :=
  let (negative, rest) := Decimal.takeSign cs
  let word := String.ofList (rest.map Char.toLower)
  if word = "inf" || word = "infinity" then
    some (if negative then -(1.0 / 0.0) else 1.0 / 0.0)
  else if word = "nan" then some (0.0 / 0.0)
  else (Decimal.parseMagnitude? negative rest).map Decimal.toFloat

/-- Read an integer: an optional sign and at least one ASCII digit. -/
def parseInt? (cs : List Char) : Option Int :=
  let (negative, ds) := Decimal.takeSign cs
  if ds.isEmpty || !ds.all Char.isDigit then none
  else
    let n : Int := Decimal.ofDigits ds
    some (if negative then -n else n)

/-- The integer as a 64-bit one, if it fits. -/
def int64? (n : Int) : Option Int64 :=
  if Int64.minValue.toInt ≤ n ∧ n ≤ Int64.maxValue.toInt then some (Int64.ofInt n) else none

end Pathwise
