import StackLinker.Json
import StackLinker.Text.Hex

/-!
# Writing JSON

Two layouts: compact, without any space, and indented by two spaces, where empty arrays and
objects stay on one line.  In a string only quotes, backslashes and characters below the space are
escaped.
-/

namespace StackLinker.Json

/-- A character inside a string. -/
def escaped (c : Char) : List Char :=
  if c = '"' then ['\\', '"']
  else if c = '\\' then ['\\', '\\']
  else if c = '\n' then ['\\', 'n']
  else if c = '\r' then ['\\', 'r']
  else if c = '\t' then ['\\', 't']
  else if c = '\x08' then ['\\', 'b']
  else if c = '\x0c' then ['\\', 'f']
  else if c.toNat < 32 then
    ['\\', 'u', '0', '0', Text.Hex.digit (c.toNat / 16), Text.Hex.digit (c.toNat % 16)]
  else [c]

/-- A string with its quotes. -/
def quotedText (s : String) : String :=
  String.ofList ('"' :: s.toList.flatMap escaped ++ ['"'])

mutual

/-- The compact text of a tree. -/
def compact : Json → String
  | .null => "null"
  | .bool b => if b then "true" else "false"
  | .number n => n.text
  | .string s => quotedText s
  | .array items => "[" ++ compactItems items ++ "]"
  | .object members => "\x7b" ++ compactMembers members ++ "\x7d"

/-- Items with commas between them. -/
def compactItems : List Json → String
  | [] => ""
  | [x] => compact x
  | x :: xs => compact x ++ "," ++ compactItems xs

/-- Members with commas between them. -/
def compactMembers : List (String × Json) → String
  | [] => ""
  | [(k, x)] => quotedText k ++ ":" ++ compact x
  | (k, x) :: rest => quotedText k ++ ":" ++ compact x ++ "," ++ compactMembers rest

end

/-- The start of a line at a depth. -/
def lineStart (depth : Nat) : String :=
  "\n" ++ String.ofList (List.replicate (2 * depth) ' ')

mutual

/-- The indented text of a tree that stands at a depth. -/
def indented (depth : Nat) : Json → String
  | .array [] => "[]"
  | .object [] => "\x7b\x7d"
  | .array items => "[" ++ indentedItems (depth + 1) items ++ lineStart depth ++ "]"
  | .object members => "\x7b" ++ indentedMembers (depth + 1) members ++ lineStart depth ++ "\x7d"
  | .null => "null"
  | .bool b => if b then "true" else "false"
  | .number n => n.text
  | .string s => quotedText s

/-- Items, each on a line of its own. -/
def indentedItems (depth : Nat) : List Json → String
  | [] => ""
  | [x] => lineStart depth ++ indented depth x
  | x :: xs => lineStart depth ++ indented depth x ++ "," ++ indentedItems depth xs

/-- Members, each on a line of its own. -/
def indentedMembers (depth : Nat) : List (String × Json) → String
  | [] => ""
  | [(k, x)] => lineStart depth ++ quotedText k ++ ": " ++ indented depth x
  | (k, x) :: rest =>
    lineStart depth ++ quotedText k ++ ": " ++ indented depth x ++ "," ++
      indentedMembers depth rest

end

/-- The indented text of a whole tree. -/
def pretty (json : Json) : String := indented 0 json

end StackLinker.Json
