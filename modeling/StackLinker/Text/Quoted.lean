import StackLinker.Text.Unprintable

/-!
# Texts in messages

A text that a message shows is put between double quotes.  Quotes and backslashes get a backslash,
line breaks and tabs their letter, and a character without a visible form its code in braces.
-/

namespace StackLinker.Text

/-- The lower-case hexadecimal digits of a code. -/
def hexDigits (n : Nat) : List Char :=
  Nat.toDigits 16 n

/-- A character between double quotes. -/
def shownChar (c : Char) : List Char :=
  if c = '"' || c = '\\' then ['\\', c]
  else if c = '\n' then ['\\', 'n']
  else if c = '\r' then ['\\', 'r']
  else if c = '\t' then ['\\', 't']
  else if c.toNat = 0 then ['\\', '0']
  else if isUnprintable c then '\\' :: 'u' :: '{' :: hexDigits c.toNat ++ ['}']
  else [c]

/-- A text as a message shows it. -/
def shown (text : String) : String :=
  String.ofList ('"' :: text.toList.flatMap shownChar ++ ['"'])

end StackLinker.Text
