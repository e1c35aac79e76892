import StackLinker.Number.Shortest

/-!
# Numbers

An integer literal of 64 bits stays an integer; every other number is a double.  An integer and a
double are never the same number, whatever their values.

A double is written with the shortest digits that read back, positionally or with an exponent.
-/

namespace StackLinker

/-- A number of a document. -/
inductive Number where
  | int (i : Int)
  | double (x : Binary64)
deriving DecidableEq, Repr, Inhabited

namespace Number

/-- The characters of decimal digits. -/
def digitChars (digits : List Nat) : List Char :=
  digits.map fun d => Char.ofNat ('0'.toNat + d)

/-- Positional notation with at least one digit on each side of the point. -/
def positionalChars (decimal : Decimal) : List Char :=
  let digits := digitChars decimal.digits
  if decimal.exponent < 0 then
    '0' :: '.' :: List.replicate ((-decimal.exponent).toNat - 1) '0' ++ digits
  else
    let whole := decimal.exponent.toNat + 1
    let padded := digits ++ List.replicate (whole - digits.length) '0'
    let fraction := padded.drop whole
    padded.take whole ++ '.' :: (if fraction.isEmpty then ['0'] else fraction)

/-- One digit before the point, none after it if there are no more, and an exponent with its
sign. -/
def scientificChars (decimal : Decimal) : List Char :=
  let exponent :=
    'e' :: (if decimal.exponent < 0 then '-' else '+') :: (Nat.repr decimal.exponent.natAbs).toList
  match digitChars decimal.digits with
  | [] => '0' :: exponent
  | [d] => d :: exponent
  | d :: rest => d :: '.' :: rest ++ exponent

/-- Doubles are written positionally from 0.00001 up to, but not including, 10 ^ 16. -/
def isPositional (exponent : Int) : Bool := decide (-5 ≤ exponent) && decide (exponent < 16)

/-- The text of a double. -/
def doubleText (x : Binary64) : String :=
  let sign := if x.negative then ['-'] else []
  if x.position = 0 then String.ofList (sign ++ ['0', '.', '0'])
  else
    let decimal := Shortest.decimalAt x.position
    String.ofList (sign ++
      if isPositional decimal.exponent then positionalChars decimal
      else scientificChars decimal)

/-- The text of an integer. -/
def intText (i : Int) : String :=
  if i < 0 then "-" ++ Nat.repr i.natAbs else Nat.repr i.natAbs

/-- The text of a number in a document. -/
def text : Number → String
  | int i => intText i
  | double x => doubleText x

/-- Equality of numbers: by kind and value. -/
def sameValue : Number → Number → Bool
  | int i, int j => i == j
  | double x, double y => x.sameValue y
  | _, _ => false

/-- The integers that stay integers when read. -/
def fitsInteger (negative : Bool) (digits : Nat) : Bool :=
  if negative then decide (0 < digits) && decide (digits ≤ Nat.pow 2 63)
  else decide (digits < Nat.pow 2 64)

end Number

end StackLinker
