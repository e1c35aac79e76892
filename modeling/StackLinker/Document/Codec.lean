import StackLinker.Document

/-!
# Reading and writing documents

The wire form of a document nests the declarations of entities.  Writing leaves out what is absent
or empty, except the list of entities of the module itself.
-/

namespace StackLinker

namespace EntityDeclaration

/-- The fields of a declaration as they are read. -/
structure Draft where
  name : Option String := none
  kind : Option EntityKind := none
  typeName : Option String := none
  value : Option Json := none
  resource : Option Json := none
  scope : List String := []
  pragmas : List Pragma := []
  children : List EntityDeclaration := []

/-- The fields of the wire form. -/
def layout : Decode.Layout where
  name := "EntityDocument"
  fields := [("name", false), ("kind", false), ("type", true), ("value", true),
    ("resource", true), ("scope", true), ("pragmas", true), ("entities", true)]

/-- Reads one field other than the children. -/
def Draft.set (field : String) (json : Json) (draft : Draft) : Decode.Result Draft :=
  match field with
  | "name" => (Decode.string json).map fun x => { draft with name := some x }
  | "kind" => (Decode.variant EntityKind.variants json).map fun x => { draft with kind := some x }
  | "type" => (Decode.optional Decode.string json).map fun x => { draft with typeName := x }
  | "value" => (Decode.optional .ok json).map fun x => { draft with value := x }
  | "resource" => (Decode.optional .ok json).map fun x => { draft with resource := x }
  | "scope" => (Decode.list Decode.string json).map fun x => { draft with scope := x }
  | "pragmas" =>
    (Decode.list Decode.string json).map fun x => { draft with pragmas := x.map Pragma.ofName }
  | _ => .ok draft

/-- The declaration from the fields that were read. -/
def Draft.finish (draft : Draft) : Decode.Result EntityDeclaration := do
  let name ← Decode.required "name" draft.name
  let kind ← Decode.required "kind" draft.kind
  return {
    name := name
    kind := kind
    typeName := draft.typeName
    value := draft.value
    resource := draft.resource
    scope := draft.scope
    pragmas := draft.pragmas
    children := draft.children }

mutual

/-- Reads a declaration. -/
def ofJson : Json → Decode.Result EntityDeclaration
  | .object members => do (← readMembers [] members {}).finish
  | .array items => do (← readItems 0 layout.fields items {}).finish
  | other => .error (.invalidType other.found layout.wanted)

/-- Reads written fields into a draft. -/
def readMembers : List String → List (String × Json) → Draft → Decode.Result Draft
  | _, [], draft => .ok draft
  | read, (field, json) :: rest, draft => do
    layout.check read field
    let draft ←
      if field = "entities" then
        (childrenOfJson json).map fun children => { draft with children := children }
      else draft.set field json
    readMembers (field :: read) rest draft

/-- Reads the fields of an array into a draft. -/
def readItems : Nat → List (String × Bool) → List Json → Draft → Decode.Result Draft
  | index, fields, [], draft => do
    layout.checkRest index fields
    return draft
  | index, fields, json :: rest, draft =>
    match fields with
    | [] => .error (.tooMany (index + (rest.length + 1)))
    | (field, _) :: fields => do
      let draft ←
        if field = "entities" then
          (childrenOfJson json).map fun children => { draft with children := children }
        else draft.set field json
      readItems (index + 1) fields rest draft

/-- Reads a list of declarations. -/
def childrenOfJson : Json → Decode.Result (List EntityDeclaration)
  | .array items => ofJsonAll items
  | other => .error (.invalidType other.found "a sequence")

/-- Reads declarations one after the other. -/
def ofJsonAll : List Json → Decode.Result (List EntityDeclaration)
  | [] => .ok []
  | json :: rest => do
    let declaration ← ofJson json
    let declarations ← ofJsonAll rest
    return declaration :: declarations

end

mutual

/-- Writes a declaration. -/
def toJson : EntityDeclaration → Json
  | ⟨name, kind, typeName, value, resource, scope, pragmas, children⟩ =>
    .object (
      [("name", .string name), ("kind", .string kind.name)] ++
      (typeName.toList.map fun t => ("type", .string t)) ++
      (value.toList.map fun v => ("value", v)) ++
      (resource.toList.map fun r => ("resource", r)) ++
      (if scope.isEmpty then [] else [("scope", .texts scope)]) ++
      (if pragmas.isEmpty then [] else [("pragmas", .texts (pragmas.map Pragma.name))]) ++
      (if children.isEmpty then [] else [("entities", .array (toJsonAll children))]))

/-- Writes several declarations. -/
def toJsonAll : List EntityDeclaration → List Json
  | [] => []
  | declaration :: rest => toJson declaration :: toJsonAll rest

end

end EntityDeclaration

namespace ModuleDocument

/-- The fields of a document as they are read. -/
structure Draft where
  name : Option String := none
  entities : List EntityDeclaration := []

/-- The fields of the wire form. -/
def layout : Decode.Layout where
  name := "ModuleDocument"
  fields := [("module", false), ("entities", true)]

/-- Reads one field. -/
def Draft.set (field : String) (json : Json) (draft : Draft) : Decode.Result Draft :=
  match field with
  | "module" => (Decode.string json).map fun x => { draft with name := some x }
  | "entities" =>
    (EntityDeclaration.childrenOfJson json).map fun x => { draft with entities := x }
  | _ => .ok draft

/-- Reads a document. -/
def ofJson (json : Json) : Decode.Result ModuleDocument := do
  let draft ← layout.read Draft.set {} json
  let name ← Decode.required "module" draft.name
  return { name := name, entities := draft.entities }

/-- Writes a document. -/
def toJson (document : ModuleDocument) : Json :=
  .object [
    ("module", .string document.name),
    ("entities", .array (EntityDeclaration.toJsonAll document.entities))]

end ModuleDocument

end StackLinker
