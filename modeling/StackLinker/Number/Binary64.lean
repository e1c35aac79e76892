/-!
# Finite binary floating point

A finite double is a sign and a position in the order of magnitudes: position `0` is zero, and each
step leads to the next representable magnitude.  Position and value are related by
`magnitude = significand * 2 ^ exponent`, with at most 53 bits in the significand and an exponent
of at least -1074.

Every operation is exact arithmetic on natural numbers followed by one rounding of a quotient to
the nearest representable magnitude, and of two equally near ones to the one with the even
significand.  A decimal is read in one operation (`nearest?`) or in two (`ofDecimal?`): its digits
become a double, which is then multiplied or divided by the double of a power of ten.
-/

namespace StackLinker

/-- A finite double: its sign and the position of its magnitude among all finite magnitudes. -/
structure Binary64 where
  negative : Bool
  position : Nat
deriving DecidableEq, Repr, Inhabited

namespace Binary64

/-- The number of finite magnitudes. -/
def limit : Nat := 2047 * Nat.pow 2 52

/-- The significand at a position: below the first power of two that fills 53 bits the magnitudes
are evenly spaced, from there on the leading bit is implied. -/
def significandAt (position : Nat) : Nat :=
  if position < Nat.pow 2 52 then position else Nat.pow 2 52 + position % Nat.pow 2 52

/-- The exponent at a position. -/
def exponentAt (position : Nat) : Int :=
  ((max (position / Nat.pow 2 52) 1 : Nat) : Int) - 1075

/-- `2 ^ e` as a factor of a numerator. -/
def powerUp (e : Int) : Nat := Nat.pow 2 e.toNat

/-- `2 ^ (-e)` as a factor of a denominator. -/
def powerDown (e : Int) : Nat := Nat.pow 2 (-e).toNat

/-- The quotient rounded to the nearest integer, a half to the even one. -/
def roundHalfEven (numerator denominator : Nat) : Nat :=
  let quotient := numerator / denominator
  let twice := 2 * (numerator % denominator)
  if twice < denominator then quotient
  else if denominator < twice then quotient + 1
  else if quotient % 2 = 0 then quotient
  else quotient + 1

/-- The binary exponent whose significand has 53 bits for this quotient, or -1074 for quotients
too small for that. -/
def exponentOf (numerator denominator : Nat) : Int :=
  let estimate : Int := (numerator.log2 : Int) - denominator.log2 - 53
  let low := max estimate (-1074)
  if numerator * powerDown low / (denominator * powerUp low) < Nat.pow 2 53 then low else low + 1

/-- The position of the magnitude nearest to a quotient.  It reaches `limit` when the quotient is
too large for a finite double. -/
def positionOf (numerator denominator : Nat) : Nat :=
  if numerator = 0 then 0
  else
    let e := exponentOf numerator denominator
    (e + 1074).toNat * Nat.pow 2 52 +
      roundHalfEven (numerator * powerDown e) (denominator * powerUp e)

/-- The magnitude at `position` times `factor`, rounded. -/
def times (position factor : Nat) : Nat :=
  let e := exponentAt position
  positionOf (significandAt position * powerUp e * factor) (powerDown e)

/-- The magnitude at `position` divided by `divisor`, rounded. -/
def divided (position divisor : Nat) : Nat :=
  let e := exponentAt position
  positionOf (significandAt position * powerUp e) (powerDown e * divisor)

/-- The magnitude at `position` as an exact natural number, for positions of integers. -/
def wholeAt (position : Nat) : Nat :=
  significandAt position * powerUp (exponentAt position) / powerDown (exponentAt position)

/-- The largest power of ten that is a finite double. -/
def greatestPower : Nat := 308

/-- The double nearest to a power of ten, as a natural number. -/
def powerOfTen (power : Nat) : Nat :=
  wholeAt (positionOf (Nat.pow 10 power) 1)

/-- Multiplication by a power of ten. -/
def scaleUp (position power : Nat) : Nat :=
  times position (powerOfTen power)

/-- Division by a power of ten.  One that exceeds the largest finite power is divided out in
several steps, each of them rounded. -/
def scaleDown (position power : Nat) : Nat :=
  if power ≤ greatestPower then divided position (powerOfTen power)
  else if position = 0 then 0
  else scaleDown (divided position (powerOfTen greatestPower)) (power - greatestPower)
termination_by power
decreasing_by simp only [greatestPower] at *; omega

/-- The double for `digits * 10 ^ exponent`: the digits are rounded first, the scaled value once
more.  There is none when the value is too large. -/
def ofDecimal? (negative : Bool) (digits : Nat) (exponent : Int) : Option Binary64 :=
  let start := positionOf digits 1
  if start = 0 then some ⟨negative, 0⟩
  else if exponent < 0 then some ⟨negative, scaleDown start (-exponent).toNat⟩
  else if greatestPower < exponent.toNat then none
  else
    let position := scaleUp start exponent.toNat
    if position < limit then some ⟨negative, position⟩ else none

/-- The double nearest to `digits * 10 ^ exponent`, rounded once.  There is none when the value is
too large. -/
def nearest? (negative : Bool) (digits : Nat) (exponent : Int) : Option Binary64 :=
  let places : Int := (Nat.repr digits).length + exponent
  if digits = 0 ∨ places < -330 then some ⟨negative, 0⟩
  else if 310 < places then none
  else
    let position := positionOf (digits * Nat.pow 10 exponent.toNat) (Nat.pow 10 (-exponent).toNat)
    if position < limit then some ⟨negative, position⟩ else none

/-- Equality of values: the two zeros are equal. -/
def sameValue (x y : Binary64) : Bool :=
  x.position == y.position && (x.negative == y.negative || x.position == 0)

end Binary64

end StackLinker
