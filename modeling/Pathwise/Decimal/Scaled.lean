import Pathwise.Decimal.Basic

/-!
# Pathwise.Decimal.Scaled

Floats read by scaling: the way numbers of program files become floats.

The digits of a numeral are collected into a coefficient as long as it fits into 64 bits. The
coefficient is rounded to a float, and the float is multiplied or divided by a power of ten. That
is fast and rounds more than once, so the result may be a neighbour of the float nearest to the
numeral, which is what `Decimal.toFloat` gives.

The two readings are kept apart on purpose. A program file that is written and read back may come
back with other float literals, which is why the statement that programs are read back as they
were written (`Pathwise.Proofs.RoundTrip`) leaves float literals out.
-/

namespace Pathwise.Decimal

/-- Append digits to a coefficient as long as it fits into 64 bits; the coefficient, and
the digits from the first one on that does not fit. -/
def absorb (n : Nat) : List Char → Nat × List Char
  | [] => (n, [])
  | c :: cs =>
    let next := 10 * n + digitValue c
    if next < UInt64.size then absorb next cs else (n, c :: cs)

/-- The numeral with a coefficient of 64 bits. A digit before the point that does not
fit still counts as a place; a digit after the point that does not fit is dropped with
all that follow it. The digits after the point are tried even if one before the point
did not fit. -/
def Parts.toWord (negative : Bool) (p : Parts) : Decimal :=
  let fraction := p.fraction.getD []
  let (n, places) := absorb 0 p.whole
  let (coefficient, dropped) := absorb n fraction
  { negative, coefficient
    exponent := p.exponent.getD 0 + places.length - (fraction.length - dropped.length : Nat) }

/-- The largest power of ten among the floats. -/
def largestPower : Nat := 308

/-- A power of ten as a float. -/
def floatTenTo (n : Nat) : Float := Float.ofScientific 1 false n

/-- A float divided by `10 ^ n`, in two steps if that is no float. A third step would
divide zero, if the float comes from 64 bits. -/
def scaleDown (x : Float) (n : Nat) : Float :=
  if n ≤ largestPower then x / floatTenTo n
  else x / floatTenTo largestPower / floatTenTo (min (n - largestPower) largestPower)

/-- A float multiplied by `10 ^ n`, if the result is finite. -/
def scaleUp? (x : Float) (n : Nat) : Option Float :=
  if x == 0.0 then some x
  else if n ≤ largestPower then
    let y := x * floatTenTo n
    if y.isInf then none else some y
  else none

/-- The float of a numeral by scaling its coefficient; `none` beyond the range. -/
def scaled? (d : Decimal) : Option Float := do
  let x := Float.ofNat d.coefficient
  let magnitude ←
    if d.exponent < 0 then some (scaleDown x d.exponent.natAbs)
    else scaleUp? x d.exponent.natAbs
  return if d.negative then -magnitude else magnitude

end Pathwise.Decimal
