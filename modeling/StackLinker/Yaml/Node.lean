import StackLinker.Yaml.Token

/-!
# YAML nodes

A node is what a text holds before it is known which type its scalars have.  Lists and mappings may
end with a comma, a key may stand without a value, and a pair in a list is a mapping of its own.  A
text without tokens holds the empty plain scalar.

A key is a scalar.  Its colon is on the line on which the key starts and at most 1024 bytes after
that start.
-/

namespace StackLinker.Yaml

/-- A tree whose scalars have no type yet. -/
inductive Node where
  | scalar (content : Scalar)
  | sequence (items : List Node)
  | mapping (entries : List (String × Node))
deriving Repr

namespace Node

/-- What stands where nothing is written. -/
def empty : Node := .scalar (.plain "")

mutual

/-- How many containers are nested in each other. -/
def nesting : Node → Nat
  | .scalar _ => 0
  | .sequence items => nestingOfItems items + 1
  | .mapping entries => nestingOfEntries entries + 1

/-- The deepest nesting of several nodes. -/
def nestingOfItems : List Node → Nat
  | [] => 0
  | node :: rest => max (nesting node) (nestingOfItems rest)

/-- The deepest nesting of the values of a mapping. -/
def nestingOfEntries : List (String × Node) → Nat
  | [] => 0
  | (_, node) :: rest => max (nesting node) (nestingOfEntries rest)

end

/-- What is found at the start of a list of tokens, and the rest. -/
abbrev Result (α : Type) := Option (α × List Token)

/-- The greatest distance in bytes from the start of a key to its colon. -/
def greatestKey : Nat := 1024

/-- Whether a colon belongs to the scalar that starts at a place. -/
def belongs (colon start : Mark) : Bool :=
  colon.line == start.line && decide (colon.offset ≤ start.offset + greatestKey)

/-- Reads a value after its colon: nothing is written before a comma or a closing bracket. -/
def value (node : List Token → Result Node) (tokens : List Token) : Result Node :=
  match tokens with
  | .comma :: _ | .closeSequence :: _ | .closeMapping :: _ => some (empty, tokens)
  | _ => node tokens

/-- Reads an item of a sequence. -/
def item (node : List Token → Result Node) (tokens : List Token) : Result Node :=
  match tokens with
  | .scalar start key :: .colon place :: rest =>
    if belongs place start then
      (value node rest).map fun found => (.mapping [(key.text, found.1)], found.2)
    else none
  | _ => node tokens

/-- Reads an entry of a mapping. -/
def entry (node : List Token → Result Node) (tokens : List Token) : Result (String × Node) :=
  match tokens with
  | .scalar start key :: .colon place :: rest =>
    if belongs place start then
      (value node rest).map fun found => ((key.text, found.1), found.2)
    else none
  | .scalar _ key :: rest => some ((key.text, empty), rest)
  | _ => none

/-- Reads the parts of a container up to its closing bracket; `fuel` is more than the number of
tokens. -/
def parts {α : Type} (part : List Token → Result α) (close : Token) :
    Nat → List Token → Result (List α)
  | 0, _ => none
  | fuel + 1, tokens =>
    if tokens.head? = some close then some ([], tokens.tail)
    else
      match part tokens with
      | none => none
      | some (x, .comma :: rest) =>
        (parts part close fuel rest).map fun found => (x :: found.1, found.2)
      | some (x, rest) => if rest.head? = some close then some ([x], rest.tail) else none

/-- Reads a node in which at most `depth` pairs of brackets are nested. -/
def read : Nat → List Token → Result Node
  | _, .scalar _ content :: rest => some (.scalar content, rest)
  | depth + 1, .openSequence :: rest =>
    (parts (item (read depth)) .closeSequence (rest.length + 1) rest).map fun found =>
      (.sequence found.1, found.2)
  | depth + 1, .openMapping :: rest =>
    (parts (entry (read depth)) .closeMapping (rest.length + 1) rest).map fun found =>
      (.mapping found.1, found.2)
  | _, _ => none

/-- How many containers may be nested. -/
def greatestDepth : Nat := 128

/-- The node that all tokens together stand for. -/
def ofTokens? (tokens : List Token) : Option Node :=
  if tokens.isEmpty then some empty
  else
    match read greatestDepth tokens with
    | some (node, []) => if node.nesting ≤ greatestDepth then some node else none
    | _ => none

/-- The node that a text holds. -/
def parse? (source : String) : Option Node :=
  (Token.scan? source).bind ofTokens?

end Node

end StackLinker.Yaml
