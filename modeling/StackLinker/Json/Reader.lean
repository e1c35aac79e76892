import StackLinker.Json
import StackLinker.Text.Hex

/-!
# Reading JSON

A reader over a list of characters answers the tree that stands at the start together with the
rest of the text.  Containers may be nested to a fixed depth, and the recursion of the reader is
on the depth that is left; the loops over the parts of a container are bounded by the length of
the text.  Objects are read as they are written, repeated keys included.
-/

namespace StackLinker.Json

namespace Reader

/-- What a reader finds at the start of a text, and the rest. -/
abbrev Result (α : Type) := Option (α × List Char)

/-- The characters that may stand between tokens. -/
def isSpace (c : Char) : Bool :=
  c == ' ' || c == '\n' || c == '\t' || c == '\r'

/-- The text after the space at its start. -/
def skipSpace (text : List Char) : List Char :=
  text.dropWhile isSpace

/-- Reads a fixed word. -/
def word (expected : List Char) (json : Json) (text : List Char) : Result Json :=
  (expected.isPrefixOf? text).map fun rest => (json, rest)

/-! ## Numbers -/

/-- The value of a decimal digit. -/
def digitValue (c : Char) : Nat := c.toNat - '0'.toNat

/-- The digits at the start of a text, and the rest. -/
def digits (text : List Char) : List Nat × List Char :=
  ((text.takeWhile Char.isDigit).map digitValue, text.dropWhile Char.isDigit)

/-- Digits gathered into a number of at most 64 bits. -/
structure Gathered where
  significand : Nat
  exponent : Int
  full : Bool

/-- Takes in a digit of the whole part.  Once a digit has not fitted, all later ones only count. -/
def Gathered.addWhole (g : Gathered) (d : Nat) : Gathered :=
  if g.full || decide (Nat.pow 2 64 ≤ g.significand * 10 + d) then
    { g with exponent := g.exponent + 1, full := true }
  else
    { g with significand := g.significand * 10 + d }

/-- Takes in a digit of the fraction.  Once a digit has not fitted, all later ones are dropped. -/
def Gathered.addFraction (g : Gathered) (d : Nat) : Gathered :=
  if g.full || decide (Nat.pow 2 64 ≤ g.significand * 10 + d) then { g with full := true }
  else { g with significand := g.significand * 10 + d, exponent := g.exponent - 1 }

/-- The number that decimal digits stand for. -/
def valueOf (digits : List Nat) : Nat :=
  digits.foldl (fun value d => value * 10 + d) 0

/-- Reads the fraction after a whole part: none, or a point and at least one digit. -/
def fraction (text : List Char) : Result (Option (List Nat)) :=
  match text with
  | '.' :: rest =>
    match digits rest with
    | ([], _) => none
    | (ds, rest) => some (some ds, rest)
  | _ => some (none, text)

/-- Reads the digits of an exponent. -/
def exponentDigits (negative : Bool) (text : List Char) : Result (Option Int) :=
  match digits text with
  | ([], _) => none
  | (ds, rest) => some (some (if negative then -(valueOf ds : Int) else valueOf ds), rest)

/-- Reads an exponent: none, or the letter, a sign if there is one, and at least one digit. -/
def exponent (text : List Char) : Result (Option Int) :=
  match text with
  | c :: rest =>
    if c = 'e' || c = 'E' then
      match rest with
      | '+' :: rest => exponentDigits false rest
      | '-' :: rest => exponentDigits true rest
      | _ => exponentDigits false rest
    else some (none, text)
  | [] => some (none, [])

/-- The number with the given parts. -/
def numberOf (negative : Bool) (whole : List Nat) (fraction : Option (List Nat))
    (exponent : Option Int) : Option Number :=
  let value := valueOf whole
  if fraction.isNone && exponent.isNone && Number.fitsInteger negative value then
    some (.int (if negative then -(value : Int) else value))
  else
    let gathered := whole.foldl Gathered.addWhole ⟨0, 0, false⟩
    let gathered := (fraction.getD []).foldl Gathered.addFraction { gathered with full := false }
    (Binary64.ofDecimal? negative gathered.significand
      (gathered.exponent + exponent.getD 0)).map .double

/-- Reads a number without its sign.  A whole part of several digits does not start with zero. -/
def unsigned (negative : Bool) (text : List Char) : Result Json :=
  let whole := digits text
  if whole.1.isEmpty || (whole.1.head? == some 0 && whole.1.length != 1) then none
  else
    match fraction whole.2 with
    | none => none
    | some (fraction, rest) =>
      match exponent rest with
      | none => none
      | some (exponent, rest) =>
        (numberOf negative whole.1 fraction exponent).map fun n => (.number n, rest)

/-- Reads a number. -/
def number (text : List Char) : Result Json :=
  match text with
  | '-' :: rest => unsigned true rest
  | _ => unsigned false text

/-! ## Strings -/

/-- Where the reader of a string stands.  An escaped character outside the basic plane is written
as two escaped units; `high` is the first of them while the second is awaited. -/
inductive Place where
  | plain
  | escape (high : Option Nat)
  | hex (high : Option Nat) (left value : Nat)
  | betweenUnits (high : Nat)

/-- The character for an escape of one letter. -/
def letterEscape (c : Char) : Option Char :=
  match c with
  | '"' => some '"'
  | '\\' => some '\\'
  | '/' => some '/'
  | 'b' => some '\x08'
  | 'f' => some '\x0c'
  | 'n' => some '\n'
  | 'r' => some '\r'
  | 't' => some '\t'
  | _ => none

/-- What follows from a complete unit: a character, or the wait for the second unit. -/
def unitDone (high : Option Nat) (unit : Nat) : Option (Option Char × Place) :=
  match high with
  | some high =>
    if 0xDC00 ≤ unit && unit ≤ 0xDFFF then
      some (some (Char.ofNat (0x10000 + (high - 0xD800) * 0x400 + (unit - 0xDC00))), .plain)
    else none
  | none =>
    if 0xD800 ≤ unit && unit ≤ 0xDBFF then some (none, .betweenUnits unit)
    else if 0xDC00 ≤ unit && unit ≤ 0xDFFF then none
    else some (some (Char.ofNat unit), .plain)

/-- Reads the rest of a string up to its closing quote; `read` holds its characters so far, last
one first. -/
def textFrom : Place → List Char → List Char → Result String
  | _, _, [] => none
  | .plain, read, c :: rest =>
    if c = '"' then some (String.ofList read.reverse, rest)
    else if c = '\\' then textFrom (.escape none) read rest
    else if c.toNat < 32 then none
    else textFrom .plain (c :: read) rest
  | .escape high, read, c :: rest =>
    if c = 'u' then textFrom (.hex high 4 0) read rest
    else if high.isSome then none
    else
      match letterEscape c with
      | some e => textFrom .plain (e :: read) rest
      | none => none
  | .hex high left value, read, c :: rest =>
    match Text.Hex.value? c with
    | none => none
    | some d =>
      if 1 < left then textFrom (.hex high (left - 1) (value * 16 + d)) read rest
      else
        match unitDone high (value * 16 + d) with
        | none => none
        | some (some e, place) => textFrom place (e :: read) rest
        | some (none, place) => textFrom place read rest
  | .betweenUnits high, read, c :: rest =>
    if c = '\\' then textFrom (.escape (some high)) read rest else none

/-- Reads a string. -/
def text (cs : List Char) : Result String :=
  match cs with
  | '"' :: rest => textFrom .plain [] rest
  | _ => none

/-! ## Containers -/

/-- Reads the items of an array up to its closing bracket; `fuel` is at least the number of
characters. -/
def items (item : List Char → Result Json) : Nat → List Char → Result (List Json)
  | 0, _ => none
  | fuel + 1, cs =>
    match item (skipSpace cs) with
    | none => none
    | some (x, rest) =>
      match skipSpace rest with
      | ',' :: rest => (items item fuel rest).map fun found => (x :: found.1, found.2)
      | ']' :: rest => some ([x], rest)
      | _ => none

/-- Reads the members of an object up to its closing brace; `fuel` is at least the number of
characters. -/
def members (item : List Char → Result Json) : Nat → List Char → Result (List (String × Json))
  | 0, _ => none
  | fuel + 1, cs =>
    match text (skipSpace cs) with
    | none => none
    | some (key, rest) =>
      match skipSpace rest with
      | ':' :: rest =>
        match item (skipSpace rest) with
        | none => none
        | some (x, rest) =>
          match skipSpace rest with
          | ',' :: rest =>
            (members item fuel rest).map fun found => ((key, x) :: found.1, found.2)
          | '}' :: rest => some ([(key, x)], rest)
          | _ => none
      | _ => none

/-- Reads a tree that is no container. -/
def leaf (cs : List Char) : Result Json :=
  match cs with
  | 'n' :: _ => word ['n', 'u', 'l', 'l'] .null cs
  | 't' :: _ => word ['t', 'r', 'u', 'e'] (.bool true) cs
  | 'f' :: _ => word ['f', 'a', 'l', 's', 'e'] (.bool false) cs
  | '"' :: _ => (text cs).map fun found => (.string found.1, found.2)
  | _ => number cs

/-- Reads a tree in which at most `depth` containers are nested. -/
def tree : Nat → List Char → Result Json
  | 0, cs => if cs.head? == some '[' || cs.head? == some '{' then none else leaf cs
  | depth + 1, cs =>
    match cs with
    | '[' :: rest =>
      match skipSpace rest with
      | ']' :: rest => some (.array [], rest)
      | rest =>
        (items (tree depth) (rest.length + 1) rest).map fun found => (.array found.1, found.2)
    | '{' :: rest =>
      match skipSpace rest with
      | '}' :: rest => some (.object [], rest)
      | rest =>
        (members (tree depth) (rest.length + 1) rest).map fun found => (.object found.1, found.2)
    | _ => leaf cs

end Reader

/-- How many containers may be nested. -/
def greatestDepth : Nat := 127

/-- The tree that a text holds as it is written, if it holds one and nothing else. -/
def readWritten? (source : String) : Option Json :=
  match Reader.tree greatestDepth (Reader.skipSpace source.toList) with
  | some (json, rest) => if (Reader.skipSpace rest).isEmpty then some json else none
  | none => none

/-- The tree that a text holds, repeated keys settled. -/
def read? (source : String) : Option Json :=
  (readWritten? source).map merged

end StackLinker.Json
