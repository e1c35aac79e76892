import StackLinker.Json.Reader
import StackLinker.Yaml.Token

/-!
# Types of plain scalars

A plain scalar is null, a truth value, an integer or a double if it is spelled like one, and a text
otherwise.  Digits after a leading zero are a text.

An integer of 64 bits stays an integer and one beyond 128 bits becomes a double; an integer between
the two is refused.  A number too large for a finite double is a text.
-/

namespace StackLinker.Yaml

/-- The words for null, and the empty scalar. -/
def isNull (text : String) : Bool :=
  text == "" || text == "~" || text == "null" || text == "Null" || text == "NULL"

/-- The truth value that a word stands for. -/
def truth? (text : String) : Option Bool :=
  if text = "true" ∨ text = "True" ∨ text = "TRUE" then some true
  else if text = "false" ∨ text = "False" ∨ text = "FALSE" then some false
  else none

/-- The sign at the start of a text, if there is one, and what follows. -/
def cutSign (text : List Char) : Option Char × List Char :=
  match text with
  | '+' :: rest => (some '+', rest)
  | '-' :: rest => (some '-', rest)
  | _ => (none, text)

/-! ## Integers -/

/-- The number that digits of a base stand for, unless there are none or one does not belong to the
base. -/
def natural? (base : Nat) (text : List Char) : Option Nat :=
  if text.isEmpty then none
  else
    text.foldl
      (fun value c => (Text.Hex.value? c).bind fun d =>
        if d < base then value.map fun n => n * base + d else none)
      (some 0)

/-- Whether a number without its sign has several digits and starts with zero. -/
def isPadded (text : List Char) : Bool :=
  text.head? == some '0' && text.all Char.isDigit && text.length != 1

/-- The number that an integer without its sign stands for. -/
def magnitude? (text : List Char) : Option Nat :=
  match text with
  | '0' :: 'x' :: rest => natural? 16 rest
  | '0' :: 'o' :: rest => natural? 8 rest
  | '0' :: 'b' :: rest => natural? 2 rest
  | _ => if isPadded text then none else natural? 10 text

/-- The integer that a text stands for. -/
def integer? (text : List Char) : Option Int :=
  match cutSign text with
  | (some '-', rest) => (magnitude? rest).map fun n => -(n : Int)
  | (_, rest) => (magnitude? rest).map fun n => (n : Int)

/-- Whether an integer fits into so many bits, one of them for the sign of a negative number. -/
def fits (bits : Nat) (i : Int) : Bool :=
  decide (-Int.pow 2 (bits - 1) ≤ i) && decide (i < Int.pow 2 bits)

/-! ## Doubles -/

/-- The fraction at the start of a text: nothing, or a point and digits. -/
def fraction (text : List Char) : List Nat × List Char :=
  match text with
  | '.' :: rest => Json.Reader.digits rest
  | _ => ([], text)

/-- The double that a decimal stands for, if it is finite. -/
def decimal? (negative : Bool) (text : List Char) : Option Binary64 :=
  let (whole, rest) := Json.Reader.digits text
  let (part, rest) := fraction rest
  let digits := whole ++ part
  match Json.Reader.exponent rest with
  | some (exponent, []) =>
    if digits.isEmpty then none
    else
      Binary64.nearest? negative (Json.Reader.valueOf digits)
        (exponent.getD 0 - (part.length : Int))
  | _ => none

/-- Whether a text is a spelling of an infinite number or of no number. -/
def isUnbounded (sign : Option Char) (text : List Char) : Bool :=
  let word := String.ofList text
  word == ".inf" || word == ".Inf" || word == ".INF" ||
    (sign.isNone && (word == ".nan" || word == ".NaN" || word == ".NAN"))

/-- The data that a text stands for that is no integer.  There is no data for infinite numbers. -/
def doubleOrText (text : String) : Json :=
  let (sign, rest) := cutSign text.toList
  if isPadded rest then .string text
  else if isUnbounded sign rest then .null
  else
    match decimal? (sign == some '-') rest with
    | some x => .number (.double x)
    | none => .string text

/-! ## Scalars as data -/

/-- The data that a plain scalar stands for. -/
def plainData? (text : String) : Option Json :=
  if isNull text then some .null
  else
    match truth? text, integer? text.toList with
    | some b, _ => some (.bool b)
    | none, some i =>
      if fits 64 i then some (.int i)
      else if fits 128 i then none
      else some (doubleOrText text)
    | none, none => some (doubleOrText text)

/-- The data that a scalar stands for. -/
def Scalar.data? : Scalar → Option Json
  | plain text => plainData? text
  | quoted text => some (.string text)

end StackLinker.Yaml
