import StackLinker.Json

/-!
# Values

The tree that an entity stands for.  Leaves are opaque scalars; inner nodes are lists, ordered
maps, and records, which are provider declarations with two compound fields.  A value may hold
`null` until it is first traversed; every traversal rejects it.
-/

namespace StackLinker

/-- A leaf. -/
inductive Scalar where
  | string (s : String)
  | number (n : Number)
  | bool (b : Bool)
deriving DecidableEq, Repr, Inhabited

namespace Scalar

/-- The text of a scalar inside a pattern or an environment variable. -/
def text : Scalar → String
  | string s => s
  | number n => n.text
  | bool b => if b then "true" else "false"

/-- The wire form of a scalar. -/
def toJson : Scalar → Json
  | string s => .string s
  | number n => .number n
  | bool b => .bool b

/-- Equality of values, numbers compared by value. -/
def sameValue : Scalar → Scalar → Bool
  | string a, string b => a == b
  | number a, number b => a.sameValue b
  | bool a, bool b => a == b
  | _, _ => false

end Scalar

/-- What a provider declaration says besides its compound fields. -/
structure Header where
  typeName : String
  condition : Option String := none
  dependsOn : List String := []
  deletionPolicy : Option String := none
deriving DecidableEq, Repr, Inhabited

/-- A value tree. -/
inductive Value where
  | null
  | scalar (s : Scalar)
  | list (items : List Value)
  | map (entries : List (String × Value))
  | record (header : Header) (metadata properties : Value)
deriving Repr, Inhabited

/-- The kind of a node, as named in messages. -/
inductive Shape where
  | null
  | scalar
  | list
  | map
  | record
deriving DecidableEq, Repr

/-- The word for a shape. -/
def Shape.name : Shape → String
  | null => "null"
  | scalar => "scalar"
  | list => "list"
  | map => "map"
  | record => "record"

namespace Value

/-- A text leaf. -/
def string (s : String) : Value := .scalar (.string s)

/-- The shape of the root node. -/
def shape : Value → Shape
  | null => .null
  | scalar _ => .scalar
  | list _ => .list
  | map _ => .map
  | record .. => .record

/-- Whether the value is a leaf. -/
def isScalar : Value → Bool
  | scalar _ => true
  | _ => false

/-- The text of a text leaf. -/
def asString : Value → Option String
  | scalar (.string s) => some s
  | _ => none

/-- The entries of a map. -/
def asMap : Value → Option (Fields Value)
  | map entries => some entries
  | _ => none

/-! ## Wire form -/

mutual

/-- The value that a JSON tree stands for.  It holds no record. -/
def ofJson : Json → Value
  | .null => .null
  | .bool b => .scalar (.bool b)
  | .number n => .scalar (.number n)
  | .string s => .scalar (.string s)
  | .array items => .list (ofJsonItems items)
  | .object members => .map (ofJsonMembers members)

/-- The values of the items of an array. -/
def ofJsonItems : List Json → List Value
  | [] => []
  | x :: xs => ofJson x :: ofJsonItems xs

/-- The values of the members of an object. -/
def ofJsonMembers : List (String × Json) → List (String × Value)
  | [] => []
  | (k, x) :: rest => (k, ofJson x) :: ofJsonMembers rest

end

/-- The members of a written declaration, in their fixed order.  Fields that say nothing are left
out; the properties never are. -/
def recordMembers (header : Header) (omitMetadata : Bool) (metadata properties : Json) :
    List (String × Json) :=
  ("Type", .string header.typeName) ::
    ((header.condition.toList.map fun c => ("Condition", .string c)) ++
    (if header.dependsOn.isEmpty then [] else [("DependsOn", .texts header.dependsOn)]) ++
    (header.deletionPolicy.toList.map fun p => ("DeletionPolicy", .string p)) ++
    (if omitMetadata then [] else [("Metadata", metadata)]) ++
    [("Properties", properties)])

/-- Whether a value is the empty map. -/
def isEmptyMap : Value → Bool
  | map [] => true
  | _ => false

mutual

/-- The wire form of a value. -/
def toJson : Value → Json
  | null => .null
  | scalar s => s.toJson
  | list items => .array (toJsonItems items)
  | map entries => .object (toJsonEntries entries)
  | record header metadata properties =>
    .object (recordMembers header metadata.isEmptyMap (toJson metadata) (toJson properties))

/-- The wire forms of items. -/
def toJsonItems : List Value → List Json
  | [] => []
  | x :: xs => toJson x :: toJsonItems xs

/-- The wire forms of entries. -/
def toJsonEntries : List (String × Value) → List (String × Json)
  | [] => []
  | (k, x) :: rest => (k, toJson x) :: toJsonEntries rest

end

mutual

/-- A tree survives being taken for a value. -/
theorem toJson_ofJson : ∀ json : Json, (ofJson json).toJson = json
  | .null => rfl
  | .bool _ => rfl
  | .number _ => rfl
  | .string _ => rfl
  | .array items => by simp [ofJson, toJson, toJsonItems_ofJsonItems items]
  | .object members => by simp [ofJson, toJson, toJsonEntries_ofJsonMembers members]

theorem toJsonItems_ofJsonItems : ∀ items : List Json, toJsonItems (ofJsonItems items) = items
  | [] => rfl
  | x :: xs => by simp [ofJsonItems, toJsonItems, toJson_ofJson x, toJsonItems_ofJsonItems xs]

theorem toJsonEntries_ofJsonMembers :
    ∀ members : List (String × Json), toJsonEntries (ofJsonMembers members) = members
  | [] => rfl
  | (k, x) :: rest => by
    simp [ofJsonMembers, toJsonEntries, toJson_ofJson x, toJsonEntries_ofJsonMembers rest]

end

/-! ## Equality of values -/

mutual

/-- Equality of the things that two trees stand for: maps are compared without regard to order,
records by their wire form. -/
def sameValue : Value → Value → Bool
  | null, null => true
  | scalar a, scalar b => a.sameValue b
  | list a, list b => sameItems a b
  | map a, map b => a.length == b.length && sameEntries a b
  | record h m p, record h' m' p' =>
    h.typeName == h'.typeName && (toJson (record h m p)).sameValue (toJson (record h' m' p'))
  | _, _ => false

/-- Equality of lists of values. -/
def sameItems : List Value → List Value → Bool
  | [], [] => true
  | x :: xs, y :: ys => sameValue x y && sameItems xs ys
  | _, _ => false

/-- Whether each entry of the first map has its counterpart in the second. -/
def sameEntries : List (String × Value) → List (String × Value) → Bool
  | [], _ => true
  | (k, x) :: rest, others =>
    (match Fields.find? k others with
      | some y => sameValue x y
      | none => false) && sameEntries rest others

end

/-! ## Decidable equality -/

mutual

/-- Equality as a test. -/
def decEq : Value → Value → Bool
  | null, null => true
  | scalar a, scalar b => decide (a = b)
  | list a, list b => decEqItems a b
  | map a, map b => decEqEntries a b
  | record h m p, record h' m' p' => decide (h = h') && decEq m m' && decEq p p'
  | _, _ => false

/-- Equality of lists of values as a test. -/
def decEqItems : List Value → List Value → Bool
  | [], [] => true
  | x :: xs, y :: ys => decEq x y && decEqItems xs ys
  | _, _ => false

/-- Equality of entries, order included, as a test. -/
def decEqEntries : List (String × Value) → List (String × Value) → Bool
  | [], [] => true
  | (k, x) :: xs, (l, y) :: ys => k == l && decEq x y && decEqEntries xs ys
  | _, _ => false

end

mutual

theorem decEq_iff : ∀ a b : Value, decEq a b = true ↔ a = b
  | null, b => by cases b <;> simp [decEq]
  | scalar _, b => by cases b <;> simp [decEq]
  | list xs, b => by cases b <;> simp [decEq, decEqItems_iff xs]
  | map es, b => by cases b <;> simp [decEq, decEqEntries_iff es]
  | record _ m p, b => by
    cases b <;> simp [decEq, decEq_iff m, decEq_iff p, and_assoc]

theorem decEqItems_iff : ∀ a b : List Value, decEqItems a b = true ↔ a = b
  | [], b => by cases b <;> simp [decEqItems]
  | x :: xs, b => by cases b <;> simp [decEqItems, decEq_iff x, decEqItems_iff xs]

theorem decEqEntries_iff : ∀ a b : List (String × Value), decEqEntries a b = true ↔ a = b
  | [], b => by cases b <;> simp [decEqEntries]
  | (k, x) :: es, b => by
    cases b with
    | nil => simp [decEqEntries]
    | cons e rest => simp [decEqEntries, decEq_iff x, decEqEntries_iff es, Prod.ext_iff]

end

instance : DecidableEq Value := fun a b => decidable_of_iff _ (decEq_iff a b)

end Value

end StackLinker
