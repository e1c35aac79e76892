import StackLinker.Number.Binary64

/-!
# Shortest decimals

A magnitude is written with the fewest decimal digits that still read back as the same double.
The reals that round to a magnitude form an interval, closed when the significand is even.  For
1, 2, … 17 digits the two neighbours of the value on the grid of decimals with that many digits
are tried; the first grid with a neighbour inside the interval gives the digits, the nearer
neighbour if both are inside, and the one with the even last digit if they are equally near.
-/

namespace StackLinker

/-- Decimal digits with the power of ten of the first digit: the value is
`d₀.d₁d₂… * 10 ^ exponent`. -/
structure Decimal where
  digits : List Nat
  exponent : Int
deriving DecidableEq, Repr

namespace Shortest

/-- A positive value with the two ends of its rounding interval, all over one denominator. -/
structure Interval where
  low : Nat
  value : Nat
  high : Nat
  denominator : Nat
  closed : Bool

/-- The rounding interval at a position.  Numerators count quarters of the last place; below a
power of two the magnitudes are twice as dense. -/
def intervalAt (position : Nat) : Interval :=
  let m := Binary64.significandAt position
  let e := Binary64.exponentAt position - 2
  let denser := m = Nat.pow 2 52 ∧ -1074 < Binary64.exponentAt position
  let up := Binary64.powerUp e
  { low := (if denser then 4 * m - 1 else 4 * m - 2) * up
    value := 4 * m * up
    high := (4 * m + 2) * up
    denominator := Binary64.powerDown e
    closed := m % 2 = 0 }

/-- Whether `point / scale` lies in the interval. -/
def Interval.holds (interval : Interval) (point scale : Nat) : Bool :=
  let p := point * interval.denominator
  let low := interval.low * scale
  let high := interval.high * scale
  if interval.closed then decide (low ≤ p) && decide (p ≤ high)
  else decide (low < p) && decide (p < high)

/-- The number of decimal places that make a small quotient at least one; `fuel` bounds the
search. -/
def placesToOne : Nat → Nat → Nat → Nat
  | 0, _, _ => 0
  | fuel + 1, numerator, denominator =>
    if denominator ≤ numerator then 0 else placesToOne fuel (10 * numerator) denominator + 1

/-- The power of ten of the first digit of a quotient. -/
def leadingExponent (numerator denominator : Nat) : Int :=
  if denominator ≤ numerator then ((Nat.toDigits 10 (numerator / denominator)).length : Int) - 1
  else -(placesToOne 400 numerator denominator : Int)

/-- The neighbour of the value, on the grid with `count` digits, that stands for it. -/
def onGrid? (interval : Interval) (leading : Int) (count : Nat) : Option Nat :=
  let step : Int := leading - (count : Int) + 1
  let up := Nat.pow 10 step.toNat
  let down := Nat.pow 10 (-step).toNat
  let numerator := interval.value * down
  let denominator := interval.denominator * up
  let below := numerator / denominator
  let lower := interval.holds (below * up) down
  let upper := interval.holds ((below + 1) * up) down
  if lower && upper then some (Binary64.roundHalfEven numerator denominator)
  else if lower then some below
  else if upper then some (below + 1)
  else none

/-- The first grid, of those with `count`, `count + 1`, … digits, that holds a stand-in. -/
def search (interval : Interval) (leading : Int) : Nat → Nat → Nat × Nat
  | 0, count => (interval.value / interval.denominator, count)
  | fuel + 1, count =>
    match onGrid? interval leading count with
    | some point => (point, count)
    | none => search interval leading fuel (count + 1)

/-- The decimal digits of a number, first digit first. -/
def digitsOf (n : Nat) : List Nat :=
  (Nat.toDigits 10 n).map fun c => c.toNat - '0'.toNat

/-- A list of digits without the zeros at its end. -/
def trimZeros (digits : List Nat) : List Nat :=
  (digits.reverse.dropWhile (· == 0)).reverse

/-- The shortest decimal that reads back as the magnitude at a positive position. -/
def decimalAt (position : Nat) : Decimal :=
  let interval := intervalAt position
  let leading := leadingExponent interval.value interval.denominator
  let (point, count) := search interval leading 17 1
  let digits := digitsOf point
  { digits := trimZeros digits
    exponent := leading + (digits.length : Int) - (count : Int) }

end Shortest

end StackLinker
