import StackLinker.Config.Codec
import StackLinker.Text.Hex

/-!
# Configuration files

A configuration file holds one setting per line, `key = "text"` or `key = ["text", …]`, with
comments after a number sign.  A list may run over several lines, which end with a line feed or
with a carriage return and a line feed.  Texts between double quotes may hold escapes, texts between
single quotes are taken literally.  No setting has another type, so every other spelling of a value
is refused.
-/

namespace StackLinker.Config.File

/-- What is found at the start of a text, and the rest. -/
abbrev Result (α : Type) := Option (α × List Char)

/-- A blank inside a line. -/
def isBlank (c : Char) : Bool := c == ' ' || c == '\t'

/-- The text after the blanks at its start. -/
def skipBlanks (text : List Char) : List Char := text.dropWhile isBlank

/-- A character that may not stand in a comment or a text. -/
def isControl (c : Char) : Bool :=
  (decide (c.toNat < 32) && c != '\t') || c.toNat == 127

/-- The text after blanks, line ends and comments.  The truth value says whether a comment is being
read; a comment holds no control characters, and a carriage return is followed by a line feed. -/
def skipLayout : Bool → List Char → Option (List Char)
  | _, [] => some []
  | inComment, c :: rest =>
    if c = '\n' then skipLayout false rest
    else if c = '\r' then
      if rest.head? = some '\n' then skipLayout inComment rest else none
    else if inComment then
      if isControl c then none else skipLayout true rest
    else if isBlank c then skipLayout false rest
    else if c = '#' then skipLayout true rest
    else some (c :: rest)

/-- The text after the end of a line. -/
def lineEnd (text : List Char) : Option (List Char) :=
  let rest := skipBlanks text
  let rest :=
    match rest with
    | '#' :: comment => comment.dropWhile fun c => !isControl c
    | _ => rest
  match rest with
  | [] => some []
  | '\n' :: rest => some rest
  | '\r' :: '\n' :: rest => some rest
  | _ => none

/-! ## Texts -/

/-- Where the reader of a text between double quotes stands. -/
inductive Place where
  | plain
  | escape
  | hex (left value : Nat)

/-- The character for an escape of one letter. -/
def letterEscape (c : Char) : Option Char :=
  match c with
  | '"' => some '"'
  | '\\' => some '\\'
  | 'b' => some '\x08'
  | 'f' => some '\x0c'
  | 'n' => some '\n'
  | 'r' => some '\r'
  | 't' => some '\t'
  | _ => none

/-- Reads the rest of a text between double quotes; `read` holds its characters so far, last one
first. -/
def quotedFrom : Place → List Char → List Char → Result String
  | _, _, [] => none
  | .plain, read, c :: rest =>
    if c = '"' then some (String.ofList read.reverse, rest)
    else if c = '\\' then quotedFrom .escape read rest
    else if isControl c then none
    else quotedFrom .plain (c :: read) rest
  | .escape, read, c :: rest =>
    if c = 'u' then quotedFrom (.hex 4 0) read rest
    else if c = 'U' then quotedFrom (.hex 8 0) read rest
    else
      match letterEscape c with
      | some e => quotedFrom .plain (e :: read) rest
      | none => none
  | .hex left value, read, c :: rest =>
    match Text.Hex.value? c with
    | none => none
    | some d =>
      let code := value * 16 + d
      if 1 < left then quotedFrom (.hex (left - 1) code) read rest
      else if code.isValidChar then quotedFrom .plain (Char.ofNat code :: read) rest
      else none

/-- Reads the rest of a text between single quotes. -/
def literalFrom (read : List Char) : List Char → Result String
  | [] => none
  | c :: rest =>
    if c = '\'' then some (String.ofList read.reverse, rest)
    else if isControl c then none
    else literalFrom (c :: read) rest

/-- Reads a text. -/
def text : List Char → Result String
  | '"' :: rest => quotedFrom .plain [] rest
  | '\'' :: rest => literalFrom [] rest
  | _ => none

/-! ## Settings -/

/-- Reads the items of a list up to its closing bracket; `fuel` is at least the number of
characters. -/
def items : Nat → List Char → Result (List Json)
  | 0, _ => none
  | fuel + 1, cs =>
    match skipLayout false cs with
    | none => none
    | some (']' :: rest) => some ([], rest)
    | some rest =>
      match text rest with
      | none => none
      | some (item, rest) =>
        match skipLayout false rest with
        | some (',' :: rest) =>
          (items fuel rest).map fun found => (.string item :: found.1, found.2)
        | some (']' :: rest) => some ([.string item], rest)
        | _ => none

/-- Reads a value. -/
def value (cs : List Char) : Result Json :=
  match cs with
  | '[' :: rest => (items (rest.length + 1) rest).map fun found => (.array found.1, found.2)
  | _ => (text cs).map fun found => (.string found.1, found.2)

/-- A character of a key without quotes. -/
def isKeyChar (c : Char) : Bool := c.isAlphanum || c == '_' || c == '-'

/-- Reads a key. -/
def key (cs : List Char) : Result String :=
  let bare := cs.takeWhile isKeyChar
  if bare.isEmpty then text cs else some (String.ofList bare, cs.dropWhile isKeyChar)

/-- Reads a setting with the line that it ends on. -/
def setting (cs : List Char) : Result (String × Json) :=
  match key cs with
  | none => none
  | some (key, rest) =>
    match skipBlanks rest with
    | '=' :: rest =>
      match value (skipBlanks rest) with
      | none => none
      | some (json, rest) => (lineEnd rest).map fun rest => ((key, json), rest)
    | _ => none

/-- Reads all settings; `fuel` is more than the number of characters. -/
def settings : Nat → List Char → Option (List (String × Json))
  | 0, _ => none
  | fuel + 1, cs =>
    match skipLayout false cs with
    | none => none
    | some [] => some []
    | some rest =>
      match setting rest with
      | none => none
      | some (found, rest) => (settings fuel rest).map (found :: ·)

/-- The characters of a file without the byte order mark that it may start with. -/
def characters (source : String) : List Char :=
  match source.toList with
  | '\ufeff' :: rest => rest
  | all => all

/-- The configuration in a file, unless the file cannot be read as one. -/
def parse? (source : String) : Option Config :=
  match settings (source.toList.length + 1) (characters source) with
  | none => none
  | some members => (Config.ofJson (.object members)).toOption

end StackLinker.Config.File
