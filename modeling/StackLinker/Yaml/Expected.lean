import StackLinker.Yaml.Node
import StackLinker.Yaml.Resolution

/-!
# YAML where data is expected

Which data a scalar stands for depends on what is expected at its place: where a text is expected,
the characters of every scalar are that text, and where arbitrary data is expected, a plain scalar
has the type that it is spelled like.  An empty plain scalar may stand for an empty list or an empty
mapping.  Data with named fields is written as a mapping.
-/

namespace StackLinker.Yaml

/-- What is expected at a place of a file. -/
inductive Expected where
  | data
  | text
  | optionalText
  | truth
  | list (item : Expected)
  | dictionary (item : Expected)
  | fields (known : List (String × Expected))
  /-- The declaration of an entity. -/
  | declaration
deriving Repr

namespace Expected

/-- The fields of a declaration. -/
def declarationFields : List (String × Expected) :=
  [("name", text), ("kind", text), ("type", optionalText), ("value", data), ("resource", data),
    ("scope", list text), ("pragmas", list text), ("entities", list declaration)]

/-- A module document. -/
def document : Expected :=
  fields [("module", text), ("entities", list declaration)]

/-- A type table. -/
def typeTable : Expected :=
  fields [("types", dictionary (list text)), ("allow_unknown_types", truth)]

/-- What is expected of the items of a list. -/
def item? : Expected → Option Expected
  | data => some data
  | list item => some item
  | _ => none

/-- What is expected of the value of a key. -/
def field? (key : String) : Expected → Option Expected
  | data => some data
  | dictionary item => some item
  | fields known => Fields.find? key known
  | declaration => Fields.find? key declarationFields
  | _ => none

/-- Whether a mapping may stand here. -/
def isMapping : Expected → Bool
  | data | dictionary _ | fields _ | declaration => true
  | _ => false

/-- The data that a scalar stands for. -/
def scalar? : Expected → Scalar → Option Json
  | data, content => content.data?
  | text, content => some (.string content.text)
  | optionalText, .plain s => some (if isNull s then .null else .string s)
  | optionalText, .quoted s => some (.string s)
  | truth, .plain s => (truth? s).map .bool
  | list _, .plain "" => some (.array [])
  | dictionary _, .plain "" | fields _, .plain "" | declaration, .plain "" => some (.object [])
  | _, _ => none

end Expected

namespace Node

mutual

/-- The data that a node stands for where it is expected. -/
def toJson? (expected : Expected) : Node → Option Json
  | .scalar content => expected.scalar? content
  | .sequence items =>
    match expected.item? with
    | none => none
    | some item => (itemsToJson? item items).map .array
  | .mapping entries =>
    if expected.isMapping then (entriesToJson? expected entries).map .object else none

/-- The data that the items of a list stand for. -/
def itemsToJson? (expected : Expected) : List Node → Option (List Json)
  | [] => some []
  | node :: rest =>
    match toJson? expected node, itemsToJson? expected rest with
    | some json, some more => some (json :: more)
    | _, _ => none

/-- The data that the entries of a mapping stand for. -/
def entriesToJson? (expected : Expected) : List (String × Node) → Option (List (String × Json))
  | [] => some []
  | (key, node) :: rest =>
    match expected.field? key with
    | none => none
    | some value =>
      match toJson? value node, entriesToJson? expected rest with
      | some json, some more => some ((key, json) :: more)
      | _, _ => none

end

end Node

/-- The data that a text holds where it is expected. -/
def read? (expected : Expected) (source : String) : Option Json :=
  (Node.parse? source).bind (Node.toJson? expected)

end StackLinker.Yaml
