import StackLinker.Decode

/-!
# Provider declarations

A declaration names a provider type and may carry a condition, the names it depends on, a deletion
policy, metadata and properties.  `Record.ofJson` reads its wire form, in which metadata and
properties must be maps; `Record.toJson` writes it.
-/

namespace StackLinker

/-- A provider declaration. -/
structure Record where
  header : Header
  metadata : Value := .map []
  properties : Value := .map []
deriving DecidableEq, Repr, Inhabited

namespace Record

/-- A declaration as a node of a value tree. -/
def toValue (record : Record) : Value :=
  .record record.header record.metadata record.properties

/-- The wire form of a declaration. -/
def toJson (record : Record) : Json := record.toValue.toJson

/-- Sets a property.  Properties that are no map are left alone. -/
def withProperty (record : Record) (name : String) (value : Value) : Record :=
  match record.properties with
  | .map entries => { record with properties := .map (Fields.insert name value entries) }
  | _ => record

/-- The fields that hold trees, by name, in the order of traversal. -/
def compoundFields (record : Record) : Fields Value :=
  [("Metadata", record.metadata), ("Properties", record.properties)]

/-- Sets one of the fields that hold trees. -/
def setCompoundField (record : Record) (field : String) (value : Value) : Record :=
  if field = "Metadata" then { record with metadata := value }
  else if field = "Properties" then { record with properties := value }
  else record

/-! ## Reading -/

/-- The fields of a declaration as they are read. -/
structure Draft where
  typeName : Option String := none
  condition : Option String := none
  dependsOn : List String := []
  deletionPolicy : Option String := none
  metadata : Option Json := none
  properties : Option Json := none

/-- The fields of the wire form. -/
def layout : Decode.Layout where
  name := "RawResource"
  fields := [("Type", false), ("Condition", true), ("DependsOn", true), ("DeletionPolicy", true),
    ("Metadata", true), ("Properties", true)]

/-- Reads one field. -/
def Draft.set (field : String) (json : Json) (draft : Draft) : Decode.Result Draft :=
  match field with
  | "Type" => (Decode.string json).map fun x => { draft with typeName := some x }
  | "Condition" => (Decode.optional Decode.string json).map fun x => { draft with condition := x }
  | "DependsOn" => (Decode.list Decode.string json).map fun x => { draft with dependsOn := x }
  | "DeletionPolicy" =>
    (Decode.optional Decode.string json).map fun x => { draft with deletionPolicy := x }
  | "Metadata" => (Decode.optional .ok json).map fun x => { draft with metadata := x }
  | "Properties" => (Decode.optional .ok json).map fun x => { draft with properties := x }
  | _ => .ok draft

/-- A field that must be a map, empty if it is absent. -/
def mapSection (field : String) : Option Json → Decode.Result Value
  | none => .ok (.map [])
  | some (.object members) => .ok (Value.ofJson (.object members))
  | some other => .error (.sectionShape field (Value.ofJson other).shape)

/-- Reads the wire form of a declaration. -/
def ofJson (json : Json) : Decode.Result Record := do
  let draft ← layout.read Draft.set {} json
  let typeName ← Decode.required "Type" draft.typeName
  let properties ← mapSection "Properties" draft.properties
  let metadata ← mapSection "Metadata" draft.metadata
  return {
    header := {
      typeName := typeName
      condition := draft.condition
      dependsOn := draft.dependsOn
      deletionPolicy := draft.deletionPolicy }
    metadata := metadata
    properties := properties }

end Record

end StackLinker
