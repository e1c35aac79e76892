import StackLinker.Text

/-!
# Placeholders

A pattern is a text in which `${name}` and `${name.attribute}` stand for values; `${!text}` is an
escape that stands for itself.  A hole starts at a dollar sign followed by a brace and ends at the
first closing brace after it; an opening that is never closed is ordinary text.

`pieces` splits a pattern into characters and holes, and loses nothing: `render_pieces` says that
writing the pieces one after the other gives the pattern back.
-/

namespace StackLinker

/-- A part of a pattern: one ordinary character, or a hole with the text between its braces. -/
inductive Piece where
  | char (c : Char)
  | hole (inner : List Char)
deriving DecidableEq, Repr

namespace Piece

/-- A piece as it is written. -/
def render : Piece → List Char
  | char c => [c]
  | hole inner => '$' :: '{' :: inner ++ ['}']

/-- Whether the piece is a hole, escaped or not. -/
def isHole : Piece → Bool
  | hole _ => true
  | char _ => false

end Piece

/-- What a placeholder asks for. -/
structure Placeholder where
  name : String
  attr : Option String
deriving DecidableEq, Repr

namespace Placeholder

/-- A placeholder as it is written. -/
def text (placeholder : Placeholder) : String :=
  match placeholder.attr with
  | some attr =>
    String.ofList ['$', '{'] ++ placeholder.name ++ "." ++ attr ++ String.ofList ['}']
  | none => String.ofList ['$', '{'] ++ placeholder.name ++ String.ofList ['}']

/-- The placeholder in a hole: an escape is none, and the first dot separates the attribute. -/
def ofHole? (inner : List Char) : Option Placeholder :=
  if inner.head? = some '!' then none
  else
    match Text.cutAt '.' inner with
    | some (name, attr) => some ⟨String.ofList name, some (String.ofList attr)⟩
    | none => some ⟨String.ofList inner, none⟩

end Placeholder

namespace Pattern

/-- The pieces of a pattern.  Inside an opening, `inner` holds the characters since the opening
brace, the last one first. -/
def piecesFrom : Option (List Char) → List Char → List Piece
  | none, [] => []
  | some inner, [] => ('$' :: '{' :: inner.reverse).map .char
  | none, '$' :: '{' :: rest => piecesFrom (some []) rest
  | none, c :: rest => .char c :: piecesFrom none rest
  | some inner, c :: rest =>
    if c = '}' then .hole inner.reverse :: piecesFrom none rest
    else piecesFrom (some (c :: inner)) rest

/-- The pieces of a pattern. -/
def pieces (pattern : String) : List Piece := piecesFrom none pattern.toList

/-- The text of a list of pieces. -/
def render (pieces : List Piece) : String :=
  String.ofList (pieces.flatMap Piece.render)

/-- Whether a pattern has a hole, escaped or not. -/
def hasHoles (pattern : String) : Bool :=
  (pieces pattern).any Piece.isHole

variable {σ : Type}

/-- Fills the holes among pieces from left to right.  The answer to a placeholder is the text to
put in its place, or none to leave it as it is written; escapes are not asked about. -/
def fillPieces (answer : Placeholder → σ → Option String × σ) :
    List Piece → σ → List Char × σ
  | [], state => ([], state)
  | .char c :: rest, state =>
    let filled := fillPieces answer rest state
    (c :: filled.1, filled.2)
  | .hole inner :: rest, state =>
    match Placeholder.ofHole? inner with
    | none =>
      let filled := fillPieces answer rest state
      ((Piece.hole inner).render ++ filled.1, filled.2)
    | some placeholder =>
      let answered := answer placeholder state
      let filled := fillPieces answer rest answered.2
      ((answered.1.map String.toList).getD (Piece.hole inner).render ++ filled.1, filled.2)

/-- Fills the holes of a pattern from left to right.  Text that was put in is not read again. -/
def fill (answer : Placeholder → σ → Option String × σ) (pattern : String) (state : σ) :
    String × σ :=
  let filled := fillPieces answer (pieces pattern) state
  (String.ofList filled.1, filled.2)

/-- Replaces placeholders by a function of the placeholder alone. -/
def replace (answer : Placeholder → Option String) (pattern : String) : String :=
  (fill (fun placeholder (_ : Unit) => (answer placeholder, ())) pattern ()).1

/-! ## Nothing is lost -/

/-- The text that has been read when the reader is inside, or outside, an opening. -/
def opened : Option (List Char) → List Char
  | none => []
  | some inner => '$' :: '{' :: inner.reverse

theorem flatMap_render_piecesFrom (inside : Option (List Char)) (text : List Char) :
    (piecesFrom inside text).flatMap Piece.render = opened inside ++ text := by
  fun_induction piecesFrom inside text with
  | case1 => rfl
  | case2 inner =>
    have hchars (cs : List Char) : (cs.map Piece.char).flatMap Piece.render = cs := by
      induction cs with
      | nil => rfl
      | cons c cs ih => simpa [Piece.render] using ih
    simpa [opened] using hchars ('$' :: '{' :: inner.reverse)
  | case3 rest ih => simpa [opened] using ih
  | case4 c rest _ ih => simpa [opened, Piece.render] using ih
  | case5 inner rest ih => simpa [opened, Piece.render] using ih
  | case6 inner c rest hc ih => simpa [opened] using ih

/-- Writing the pieces of a pattern gives the pattern back. -/
theorem render_pieces (pattern : String) : render (pieces pattern) = pattern := by
  simp [render, pieces, flatMap_render_piecesFrom, opened]

end Pattern

end StackLinker
