import StackLinker.Text.Hex

/-!
# Tokens of YAML flow text

Lists and mappings between brackets are cut into indicators and scalars, one character after the
other.  Three rules decide what a scalar holds.

* Between double quotes a backslash starts an escape; between single quotes a quote is written
  twice; a plain scalar has no escapes.
* Blanks around a line break are not part of a scalar.  One line break stands for a space, several
  for all of them but the first.  The separators of lines and paragraphs are kept as they are.
* A plain scalar ends before a comment, before a colon that a blank follows, and inside brackets
  before every bracket and comma.

A tree that is spread over indented lines, anchors, tags, directives and marks between documents
have no tokens.
-/

namespace StackLinker.Yaml

/-- A place in a text, as the number of bytes and of lines before it. -/
structure Mark where
  offset : Nat := 0
  line : Nat := 0
deriving DecidableEq, Repr

/-- A piece of text, with or without quotes. -/
inductive Scalar where
  | plain (text : String)
  | quoted (text : String)
deriving DecidableEq, Repr

/-- The characters of a scalar. -/
def Scalar.text : Scalar → String
  | plain text => text
  | quoted text => text

/-- A token, with its place where the rules for keys need it. -/
inductive Token where
  | openSequence
  | closeSequence
  | openMapping
  | closeMapping
  | comma
  | colon (place : Mark)
  | scalar (start : Mark) (content : Scalar)
deriving DecidableEq, Repr

/-! ## Characters -/

/-- A blank inside a line. -/
def isBlank (c : Char) : Bool := c == ' ' || c == '\t'

/-- The end of a line. -/
def isBreak (c : Char) : Bool :=
  c == '\n' || c == '\r' || c == '\x85' || c == '\u2028' || c == '\u2029'

/-- What a line break is read as. -/
def breakChar (c : Char) : Char :=
  if c = '\u2028' ∨ c = '\u2029' then c else '\n'

/-- Whether a word ends before this character, or at the end of the text. -/
def endsWord : Option Char → Bool
  | none => true
  | some c => isBlank c || isBreak c

/-- A character that a text may hold. -/
def isAllowed (c : Char) : Bool :=
  let code := c.toNat
  code == 0x9 || code == 0xA || code == 0xD || (decide (0x20 ≤ code) && decide (code ≤ 0x7E)) ||
    code == 0x85 || (decide (0xA0 ≤ code) && decide (code ≤ 0xFFFD)) || decide (0x10000 ≤ code)

/-- The brackets and the comma. -/
def isFlowIndicator (c : Char) : Bool :=
  c == ',' || c == '[' || c == ']' || c == '\x7b' || c == '\x7d'

/-- A character that has a meaning of its own at the start of a token. -/
def isIndicator (c : Char) : Bool :=
  isFlowIndicator c || c == '-' || c == '?' || c == ':' || c == '#' || c == '&' || c == '*' ||
    c == '!' || c == '|' || c == '>' || c == '\'' || c == '"' || c == '%' || c == '@' ||
    c == '\x60'

/-- Whether a plain scalar starts here. -/
def startsPlain (depth : Nat) (c : Char) (next : Option Char) : Bool :=
  !isIndicator c || (c == '-' && !endsWord next) ||
    (depth == 0 && (c == '?' || c == ':') && !endsWord next)

/-- Whether a line with these characters marks the start or the end of a document. -/
def startsWithMarker : List Char → Bool
  | '-' :: '-' :: '-' :: rest => endsWord rest.head?
  | '.' :: '.' :: '.' :: rest => endsWord rest.head?
  | _ => false

/-- Whether a later line marks the start or the end of a document. -/
def laterMarker : List Char → Bool
  | [] => false
  | c :: rest => (isBreak c && startsWithMarker rest) || laterMarker rest

/-! ## Blanks and lines inside a scalar -/

/-- Blanks and line breaks inside a scalar that may turn out to follow its end. -/
inductive Gap where
  | none
  /-- Blanks on one line, the last one first. -/
  | blanks (read : List Char)
  /-- The first line break, if it counts, and the later ones, the last one first. -/
  | breaks (first : Option Char) (more : List Char)
deriving DecidableEq, Repr

/-- A gap with one more blank or line break. -/
def Gap.add (c : Char) : Gap → Gap
  | none => if isBreak c then breaks (breakChar c) [] else blanks [c]
  | blanks read => if isBreak c then breaks (breakChar c) [] else blanks (c :: read)
  | breaks first more => if isBreak c then breaks first (breakChar c :: more) else breaks first more

/-- What a gap inside a scalar is read as, the last character first. -/
def Gap.chars : Gap → List Char
  | none => []
  | blanks read => read
  | breaks (some '\n') [] => [' ']
  | breaks (some '\n') more => more
  | breaks first more => more ++ first.toList

/-! ## Cutting -/

/-- Which quotes a scalar stands between. -/
inductive Quote where
  | single
  | double
deriving DecidableEq, Repr

/-- The character of a quote. -/
def Quote.char : Quote → Char
  | single => '\''
  | double => '"'

/-- What is being read.  Characters of a scalar are kept with the last one first. -/
inductive Mode where
  /-- Space between tokens, and whether tabs may follow. -/
  | between (tabs : Bool)
  | comment
  | plain (start : Mark) (read : List Char) (gap : Gap)
  | quoted (quote : Quote) (start : Mark) (read : List Char) (gap : Gap)
  /-- The character after a backslash, or the second of two single quotes. -/
  | escape (quote : Quote) (start : Mark) (read : List Char)
  | hex (start : Mark) (read : List Char) (left value : Nat)
deriving DecidableEq, Repr

/-- How far a text has been cut, with the tokens found, the last one first. -/
structure Cutting where
  mode : Mode := .between false
  depth : Nat := 0
  mark : Mark := {}
  tokens : List Token := []

namespace Cutting

/-- Adds a token, after which more space may follow. -/
def push (state : Cutting) (token : Token) : Cutting :=
  { state with mode := .between true, tokens := token :: state.tokens }

/-- Adds a scalar. -/
def pushPlain (state : Cutting) (start : Mark) (read : List Char) : Cutting :=
  state.push (.scalar start (.plain (String.ofList read.reverse)))

/-- Goes on with another mode. -/
def enter (state : Cutting) (mode : Mode) : Cutting := { state with mode := mode }

/-- Reads a character between tokens. -/
def stepBetween (state : Cutting) (tabs : Bool) (c : Char) (next : Option Char) :
    Option Cutting :=
  if c = ' ' then some (state.enter (.between tabs))
  else if c = '\t' then
    if tabs || decide (0 < state.depth) then some (state.enter (.between tabs)) else none
  else if isBreak c then some (state.enter (.between false))
  else if c = '#' then some (state.enter .comment)
  else if c = '[' then some { state.push .openSequence with depth := state.depth + 1 }
  else if c = '\x7b' then some { state.push .openMapping with depth := state.depth + 1 }
  else if c = ']' then some { state.push .closeSequence with depth := state.depth - 1 }
  else if c = '\x7d' then some { state.push .closeMapping with depth := state.depth - 1 }
  else if c = ',' then some (state.push .comma)
  else if c = ':' ∧ (0 < state.depth ∨ endsWord next) then some (state.push (.colon state.mark))
  else if c = '"' then some (state.enter (.quoted .double state.mark [] .none))
  else if c = '\'' then some (state.enter (.quoted .single state.mark [] .none))
  else if startsPlain state.depth c next then some (state.enter (.plain state.mark [c] .none))
  else none

/-- Reads a character of a plain scalar, or the one after it. -/
def stepPlain (state : Cutting) (start : Mark) (read : List Char) (gap : Gap) (c : Char)
    (next : Option Char) : Option Cutting :=
  let ended := state.pushPlain start read
  if isBlank c || isBreak c then some (state.enter (.plain start read (gap.add c)))
  else if c = '#' ∧ gap ≠ .none then some (ended.enter .comment)
  else if c = ':' ∧ 0 < state.depth ∧ next.any (fun d => isFlowIndicator d || d == '?') then none
  else if (c = ':' ∧ endsWord next) ∨ (0 < state.depth ∧ isFlowIndicator c) then
    ended.stepBetween true c next
  else some (state.enter (.plain start (c :: (gap.chars ++ read)) .none))

/-- Reads a character of a quoted scalar, or the quote that closes it. -/
def stepQuoted (state : Cutting) (quote : Quote) (start : Mark) (read : List Char) (gap : Gap)
    (c : Char) (next : Option Char) : Option Cutting :=
  if isBlank c || isBreak c then some (state.enter (.quoted quote start read (gap.add c)))
  else
    let read := gap.chars ++ read
    if c = quote.char then
      if quote = .single ∧ next = some c then some (state.enter (.escape quote start read))
      else some (state.push (.scalar start (.quoted (String.ofList read.reverse))))
    else if quote = .double ∧ c = '\\' then some (state.enter (.escape quote start read))
    else some (state.enter (.quoted quote start (c :: read) .none))

/-- The character for an escape of one letter. -/
def letterEscape (c : Char) : Option Char :=
  match c with
  | '0' => some '\x00'
  | 'a' => some '\x07'
  | 'b' => some '\x08'
  | 't' => some '\t'
  | '\t' => some '\t'
  | 'n' => some '\n'
  | 'v' => some '\x0b'
  | 'f' => some '\x0c'
  | 'r' => some '\r'
  | 'e' => some '\x1b'
  | ' ' => some ' '
  | '"' => some '"'
  | '/' => some '/'
  | '\\' => some '\\'
  | 'N' => some '\x85'
  | '_' => some '\xa0'
  | 'L' => some '\u2028'
  | 'P' => some '\u2029'
  | _ => none

/-- The number of digits of an escape that gives a code point. -/
def hexEscape (c : Char) : Option Nat :=
  match c with
  | 'x' => some 2
  | 'u' => some 4
  | 'U' => some 8
  | _ => none

/-- Reads the character after a backslash, or the second of two single quotes.  An escaped line
break ends no word. -/
def stepEscape (state : Cutting) (quote : Quote) (start : Mark) (read : List Char) (c : Char) :
    Option Cutting :=
  if quote = .single then some (state.enter (.quoted quote start (c :: read) .none))
  else if isBreak c then some (state.enter (.quoted quote start read (.breaks none [])))
  else
    match hexEscape c, letterEscape c with
    | some digits, _ => some (state.enter (.hex start read digits 0))
    | none, some e => some (state.enter (.quoted quote start (e :: read) .none))
    | none, none => none

/-- Reads a digit of an escape that gives a code point. -/
def stepHex (state : Cutting) (start : Mark) (read : List Char) (left value : Nat) (c : Char) :
    Option Cutting :=
  match Text.Hex.value? c with
  | none => none
  | some d =>
    let code := value * 16 + d
    if 1 < left then some (state.enter (.hex start read (left - 1) code))
    else if code.isValidChar then
      some (state.enter (.quoted .double start (Char.ofNat code :: read) .none))
    else none

/-- The place after a character. -/
def advance (c : Char) (mark : Mark) : Mark where
  offset := mark.offset + c.utf8Size
  line := if isBreak c then mark.line + 1 else mark.line

/-- Reads a character that is not the first half of a line break. -/
def stepMode (state : Cutting) (c : Char) (next : Option Char) : Option Cutting :=
  match state.mode with
  | .between tabs => state.stepBetween tabs c next
  | .comment => some (if isBreak c then state.enter (.between false) else state)
  | .plain start read gap => state.stepPlain start read gap c next
  | .quoted quote start read gap => state.stepQuoted quote start read gap c next
  | .escape quote start read => state.stepEscape quote start read c
  | .hex start read left value => state.stepHex start read left value c

/-- Reads a character.  A carriage return before a line feed belongs to the same line break. -/
def step (state : Cutting) (c : Char) (next : Option Char) : Option Cutting :=
  if c = '\r' ∧ next = some '\n' then
    some { state with mark := { state.mark with offset := state.mark.offset + 1 } }
  else (state.stepMode c next).map fun after => { after with mark := advance c state.mark }

/-- The tokens at the end of the text. -/
def finish (state : Cutting) : Option (List Token) :=
  match state.mode with
  | .between _ | .comment => some state.tokens.reverse
  | .plain start read _ => some (state.pushPlain start read).tokens.reverse
  | _ => none

/-- Cuts the rest of a text. -/
def run : Cutting → List Char → Option (List Token)
  | state, [] => state.finish
  | state, c :: rest =>
    match state.step c rest.head? with
    | none => none
    | some state => run state rest

end Cutting

/-- The tokens of a text.  A byte order mark may stand at its start. -/
def Token.scan? (source : String) : Option (List Token) :=
  let text :=
    match source.toList with
    | '\ufeff' :: rest => rest
    | all => all
  if text.all isAllowed && !startsWithMarker text && !laterMarker text then
    Cutting.run {} text
  else none

end StackLinker.Yaml
