import Pathwise.Decimal.Shortest

/-!
# Pathwise.Decimal.Format

How a float is written out: the shortest digits that read back, laid out either positionally or
with an exponent.

A positional numeral always has a digit on both sides of the point. An exponent follows the letter
`e` without a plus sign or padding, and a lone leading digit then carries no point.

Which numbers are positional is a matter of the format, and a `Decimal.Layout` says it in terms of
where the point would stand. `exprLayout` is the one that expressions and values are shown in; the
floats of reports have a layout of their own.
-/

namespace Pathwise

namespace Decimal

/-- Where a format stays positional, by the position of the decimal point: `k` for a
number in `[10 ^ (k - 1), 10 ^ k)`. -/
structure Layout where
  /-- Whether a number with its point at this position is written positionally. -/
  positional : Int → Bool

/-- Zeros, `n` of them. -/
def zeros (n : Nat) : List Char := List.replicate n '0'

/-- The digits `ds` with the point after the first `point` of them, zeros filling
the places that have no digit. -/
def positionalText (ds : List Char) (point : Int) : List Char :=
  if point ≤ 0 then '0' :: '.' :: (zeros (-point).toNat ++ ds)
  else
    let n := point.toNat
    if ds.length ≤ n then ds ++ zeros (n - ds.length) ++ ['.', '0']
    else ds.take n ++ '.' :: ds.drop n

/-- The digits `ds` with the point after the first, scaled by a power of ten. -/
def scientificText (ds : List Char) (point : Int) : List Char :=
  let mantissa := match ds with
    | d :: e :: rest => d :: '.' :: e :: rest
    | ds => ds
  mantissa ++ 'e' :: (toString (point - 1)).toList

/-- The numeral without its sign. -/
def magnitudeText (l : Layout) (d : Decimal) : String :=
  if d.coefficient = 0 then "0.0"
  else
    let ds := digits d.coefficient
    let point := d.exponent + ds.length
    String.ofList (if l.positional point then positionalText ds point else scientificText ds point)

end Decimal

/-- The text of a float's magnitude: `inf`, `NaN` or a numeral. -/
def magnitudeText (l : Decimal.Layout) (x : Float) : String :=
  if x.isNaN then "NaN"
  else if x.isInf then "inf"
  else (Decimal.ofFloat x).magnitudeText l

/-- Whether the sign of a number is minus, also for a negative zero. -/
def signIsMinus (x : Float) : Bool := !x.isNaN && x.toBits.toNat / Decimal.twoTo 63 = 1

/-- Floats inside expressions and values are positional from `0.0001` up to but not
including `10 ^ 16`. -/
def exprLayout : Decimal.Layout := ⟨fun point => -3 ≤ point && point ≤ 16⟩

/-- The text of a float inside an expression or a value. -/
def floatText (x : Float) : String :=
  if signIsMinus x then "-" ++ magnitudeText exprLayout x else magnitudeText exprLayout x

end Pathwise
