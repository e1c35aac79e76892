import StackLinker.Text
import StackLinker.Text.Quoted
import StackLinker.Json
import StackLinker.Value

/-!
# Decoding

Typed data is read from JSON trees by a few rules that hold for every type.

* A record is an object with known fields, each at most once; some records pass over other
  fields.  Fields are read in the order in which they are written, so the first faulty one is
  reported; after that missing fields are reported in the order in which the record declares them.
* A record may also be written as an array of its fields in that order.  Fields at the end may
  then be left out if they are optional.
* A choice between names is written as the name, or as an object with the name as its only key and
  null as its value.

Each fault is a `DecodeError`; its wording is in `DecodeError.message`.
-/

namespace StackLinker

/-- What was met where something else was wanted. -/
inductive Found where
  | null
  | bool (b : Bool)
  | int (i : Int)
  | double (x : Binary64)
  | string (s : String)
  | sequence
  | map
deriving DecidableEq, Repr

/-- The words for what was met. -/
def Found.text : Found → String
  | null => "null"
  | bool b => "boolean `" ++ (if b then "true" else "false") ++ "`"
  | int i => "integer `" ++ Number.intText i ++ "`"
  | double x => "floating point `" ++ Number.doubleText x ++ "`"
  | string s => "string " ++ Text.shown s
  | sequence => "sequence"
  | map => "map"

/-- What a tree is met as. -/
def Json.found : Json → Found
  | .null => .null
  | .bool b => .bool b
  | .number (.int i) => .int i
  | .number (.double x) => .double x
  | .string s => .string s
  | .array _ => .sequence
  | .object _ => .map

/-- Why a tree is not the data that was wanted. -/
inductive DecodeError where
  | missingField (field : String)
  | duplicateField (field : String)
  | unknownField (field : String) (known : List String)
  | unknownVariant (variant : String) (known : List String)
  | invalidType (found : Found) (wanted : String)
  | invalidValue (found : Found) (wanted : String)
  | tooFew (length : Nat) (wanted : String)
  | tooMany (length : Nat)
  | sectionShape (field : String) (found : Shape)
deriving DecidableEq, Repr

namespace DecodeError

/-- A name between backticks. -/
def ticked (name : String) : String := "`" ++ name ++ "`"

/-- The names that were possible. -/
def alternatives : List String → String
  | [] => "nothing"
  | [a] => ticked a
  | [a, b] => ticked a ++ " or " ++ ticked b
  | names => "one of " ++ Text.join ", " (names.map ticked)

/-- The text of a decoding error. -/
def message : DecodeError → String
  | missingField field => "missing field " ++ ticked field
  | duplicateField field => "duplicate field " ++ ticked field
  | unknownField field known =>
    "unknown field " ++ ticked field ++ ", expected " ++ alternatives known
  | unknownVariant variant known =>
    "unknown variant " ++ ticked variant ++ ", expected " ++ alternatives known
  | invalidType found wanted => "invalid type: " ++ found.text ++ ", expected " ++ wanted
  | invalidValue found wanted => "invalid value: " ++ found.text ++ ", expected " ++ wanted
  | tooFew length wanted => "invalid length " ++ Nat.repr length ++ ", expected " ++ wanted
  | tooMany length =>
    "invalid length " ++ Nat.repr length ++ ", expected fewer elements in array"
  | sectionShape field found => field ++ " must be a map, found " ++ found.name

end DecodeError

namespace Decode

/-- The result of decoding. -/
abbrev Result (α : Type) := Except DecodeError α

/-! ## Simple data -/

/-- A text. -/
def string : Json → Result String
  | .string s => .ok s
  | other => .error (.invalidType other.found "a string")

/-- A truth value. -/
def bool : Json → Result Bool
  | .bool b => .ok b
  | other => .error (.invalidType other.found "a boolean")

/-- A natural number below 256. -/
def byte : Json → Result Nat
  | .number (.int i) =>
    if 0 ≤ i ∧ i < 256 then .ok i.toNat else .error (.invalidValue (.int i) "u8")
  | other => .error (.invalidType other.found "u8")

/-- Null for nothing. -/
def optional {α : Type} (item : Json → Result α) : Json → Result (Option α)
  | .null => .ok none
  | other => (item other).map some

/-- The items of an array, one after the other. -/
def each {α : Type} (item : Json → Result α) : List Json → Result (List α)
  | [] => .ok []
  | x :: xs => do
    let value ← item x
    let values ← each item xs
    return value :: values

/-- An array. -/
def list {α : Type} (item : Json → Result α) : Json → Result (List α)
  | .array items => each item items
  | other => .error (.invalidType other.found "a sequence")

/-- The values of the members of an object, one after the other. -/
def eachMember {α : Type} (item : Json → Result α) :
    List (String × Json) → Result (List (String × α))
  | [] => .ok []
  | (key, x) :: rest => do
    let value ← item x
    let values ← eachMember item rest
    return (key, value) :: values

/-- An object with arbitrary keys. -/
def mapping {α : Type} (item : Json → Result α) : Json → Result (Fields α)
  | .object members => (eachMember item members).map Fields.ofPairs
  | other => .error (.invalidType other.found "a map")

/-- A name out of a list of names, each with what it stands for. -/
def variantOf {α : Type} (variants : List (String × α)) (name : String) : Result α :=
  match Fields.find? name variants with
  | some a => .ok a
  | none => .error (.unknownVariant name (variants.map (·.1)))

/-- A choice between names. -/
def variant {α : Type} (variants : List (String × α)) : Json → Result α
  | .string name => variantOf variants name
  | .object [(name, payload)] => do
    let a ← variantOf variants name
    match payload with
    | .null => return a
    | other => throw (.invalidType other.found "unit")
  | .object _ => .error (.invalidValue .map "map with a single key")
  | other => .error (.invalidType other.found "string or map")

/-! ## Records -/

/-- The name and the fields of a record in the order of their declaration, each with whether an
array may end before it. -/
structure Layout where
  name : String
  fields : List (String × Bool)
  /-- Whether fields that the record does not have are passed over. -/
  ignoresUnknown : Bool := false

namespace Layout

/-- The names of the fields. -/
def names (layout : Layout) : List String := layout.fields.map (·.1)

/-- What is wanted in messages about the whole record. -/
def wanted (layout : Layout) : String := "struct " ++ layout.name

/-- What is wanted in messages about the length of an array. -/
def wantedLength (layout : Layout) : String :=
  layout.wanted ++ " with " ++ Nat.repr layout.fields.length ++
    (if layout.fields.length = 1 then " element" else " elements")

/-- Refuses a field that the record does not have or that was read before. -/
def check (layout : Layout) (read : List String) (field : String) : Result Unit :=
  if field ∉ layout.names then .error (.unknownField field layout.names)
  else if field ∈ read then .error (.duplicateField field)
  else .ok ()

/-- Refuses an array that ends before a field that it may not leave out. -/
def checkRest (layout : Layout) : Nat → List (String × Bool) → Result Unit
  | _, [] => .ok ()
  | index, (_, optional) :: rest =>
    if optional then checkRest layout (index + 1) rest
    else .error (.tooFew index layout.wantedLength)

variable {δ : Type}

/-- Reads written fields into a draft. -/
def readMembers (layout : Layout) (set : String → Json → δ → Result δ) :
    List String → List (String × Json) → δ → Result δ
  | _, [], draft => .ok draft
  | read, (field, value) :: rest, draft =>
    if layout.ignoresUnknown ∧ field ∉ layout.names then readMembers layout set read rest draft
    else do
      layout.check read field
      let draft ← set field value draft
      readMembers layout set (field :: read) rest draft

/-- Reads the fields of an array into a draft. -/
def readItems (layout : Layout) (set : String → Json → δ → Result δ) :
    Nat → List (String × Bool) → List Json → δ → Result δ
  | index, fields, [], draft => do
    layout.checkRest index fields
    return draft
  | index, [], extra, _ => .error (.tooMany (index + extra.length))
  | index, (field, _) :: fields, value :: rest, draft => do
    let draft ← set field value draft
    readItems layout set (index + 1) fields rest draft

/-- Reads a record, in either spelling, into a draft. -/
def read (layout : Layout) (set : String → Json → δ → Result δ) (blank : δ) : Json → Result δ
  | .object members => layout.readMembers set [] members blank
  | .array items => layout.readItems set 0 layout.fields items blank
  | other => .error (.invalidType other.found layout.wanted)

end Layout

/-- A field that must have been read. -/
def required {α : Type} (field : String) : Option α → Result α
  | some a => .ok a
  | none => .error (.missingField field)

end Decode

end StackLinker
