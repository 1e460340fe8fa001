import Pathwise.Decimal.Basic

/-!
# Pathwise.Decimal.Shortest

The shortest decimal numeral that reads back as a given binary float.

A positive finite float is `m · 2^q`. The reals that round to it form an interval between the
midpoints to its two neighbours, ends included exactly when `m` is even. For one digit, two digits
and so on the float's two neighbours on that decimal grid are tried; the first grid with a
neighbour inside the interval gives the answer, the nearer of two hits, the larger on a tie. All
arithmetic is exact, in natural numbers over one common denominator.

* `Binary.ofBits` takes a float apart, and `Binary.interval` is the interval that belongs to it;
* `Interval.onGrid` looks at one grid, and `Interval.search` goes through the grids;
* `ofBits` puts the parts together, with the sign and with zeros at the end taken off.

If any point of a grid lies in the interval, then so does one of the value's two neighbours on
that grid, so no shorter numeral is missed.
-/

namespace Pathwise.Decimal

/-- A positive binary float: `mantissa · 2 ^ exponent`. -/
structure Binary where
  /-- The integer significand. -/
  mantissa : Nat
  /-- The power of two. -/
  exponent : Int
  /-- Whether the neighbour below is only half a step away, which is so at powers
  of two above the smallest normal one. -/
  closeBelow : Bool

/-- Decode the magnitude of a finite float from its bits. -/
def Binary.ofBits (bits : Nat) : Binary :=
  let field := bits / twoTo 52 % twoTo 11
  let fraction := bits % twoTo 52
  if field = 0 then { mantissa := fraction, exponent := -1074, closeBelow := false }
  else
    { mantissa := twoTo 52 + fraction
      exponent := (field : Int) - 1075
      closeBelow := fraction = 0 && field > 1 }

/-- The rounding interval of a float on a common integer scale: the reals from `low`
to `high`, divided by `unit`, round to `value / unit`. -/
structure Interval where
  /-- Scaled lower end. -/
  low : Nat
  /-- Scaled value of the float itself. -/
  value : Nat
  /-- Scaled upper end. -/
  high : Nat
  /-- The common denominator. -/
  unit : Nat
  /-- Whether the ends themselves round to the float. -/
  closed : Bool

/-- The interval of reals that round to the float. -/
def Binary.interval (b : Binary) : Interval :=
  let scale := twoTo (b.exponent - 2).toNat
  { low := (4 * b.mantissa - if b.closeBelow then 1 else 2) * scale
    value := 4 * b.mantissa * scale
    high := (4 * b.mantissa + 2) * scale
    unit := twoTo (2 - b.exponent).toNat
    closed := b.mantissa % 2 = 0 }

/-- Whether the number `n / d` lies in the interval. -/
def Interval.holds (i : Interval) (n d : Nat) : Bool :=
  if i.closed then i.low * d ≤ n * i.unit && n * i.unit ≤ i.high * d
  else i.low * d < n * i.unit && n * i.unit < i.high * d

/-- Enough decimal places to bring every positive float above one. -/
def placesBelowOne : Nat := 400

/-- The number of digits before the decimal point, negative for leading zeros after
it: the `k` with `10 ^ (k - 1) ≤ value < 10 ^ k`. -/
def Interval.pointPosition (i : Interval) : Int :=
  ((digits (i.value * tenTo placesBelowOne / i.unit)).length : Int) - placesBelowOne

/-- The multiple of `10 ^ p` inside the interval that is nearest to the value, as
its quotient by `10 ^ p`; `none` when the value's neighbours on that grid both lie
outside. -/
def Interval.onGrid (i : Interval) (p : Int) : Option Nat :=
  let up := tenTo p.toNat
  let down := tenTo (-p).toNat
  let below := i.value * down / (i.unit * up)
  let above := below + 1
  match i.holds (below * up) down, i.holds (above * up) down with
  | false, false => none
  | true, false => some below
  | false, true => some above
  | true, true =>
    if (below + above) * up * i.unit ≤ 2 * i.value * down then some above else some below

/-- Seventeen digits always suffice to read a float back. -/
def maxDigits : Nat := 17

/-- Try the grids of `n` and more digits, with `fuel` grids left to try. The fuel is the number of
digits that always suffices, so the first equation is never reached from `ofBits`. -/
def Interval.search (i : Interval) (point : Int) : (fuel n : Nat) → Nat × Int
  | 0, _ => (0, 0)
  | fuel + 1, n =>
    let p := point - n
    match i.onGrid p with
    | some c => (c, p)
    | none => i.search point fuel (n + 1)

/-- Drop the trailing zeros of a coefficient, raising the exponent for each; there
are at most `fuel` of them. -/
def stripZeros : (fuel : Nat) → Nat × Int → Nat × Int
  | 0, r => r
  | fuel + 1, (c, p) => if c % 10 = 0 then stripZeros fuel (c / 10, p + 1) else (c, p)

/-- The shortest numeral that reads back as the finite float with the given bits. -/
def ofBits (bits : Nat) : Decimal :=
  let b := Binary.ofBits bits
  let negative := bits / twoTo 63 % 2 = 1
  if b.mantissa = 0 then { negative, coefficient := 0, exponent := 0 }
  else
    let i := b.interval
    let (c, p) := stripZeros maxDigits (i.search i.pointPosition maxDigits 1)
    { negative, coefficient := c, exponent := p }

/-- The shortest numeral that reads back as a finite float. -/
def ofFloat (x : Float) : Decimal := ofBits x.toBits.toNat

end Pathwise.Decimal
