import StackLinker.Text
import StackLinker.Decode
import StackLinker.Value.StructuralError

/-!
# Diagnostics

A diagnostic names the entity that is at fault, what kind of fault it is, and where.  All
diagnostics of one stage of linking are collected and reported together.  A link run fails either
with diagnostics or with a structural error.
-/

namespace StackLinker

/-- The kinds of faults in a module. -/
inductive DiagnosticKind where
  | missingReference
  | circularDependency
  /-- The entity waits for one that never resolved, without being part of a cycle. -/
  | blockedDependency
  | invalidAttribute
  | unknownScope
  | duplicateName
  | invalidDeclaration
deriving DecidableEq, Repr, Inhabited

namespace DiagnosticKind

/-- The word for a kind. -/
def name : DiagnosticKind → String
  | missingReference => "missing_reference"
  | circularDependency => "circular_dependency"
  | blockedDependency => "blocked_dependency"
  | invalidAttribute => "invalid_attribute"
  | unknownScope => "unknown_scope"
  | duplicateName => "duplicate_name"
  | invalidDeclaration => "invalid_declaration"

/-- All kinds with their words. -/
def variants : List (String × DiagnosticKind) :=
  [missingReference, circularDependency, blockedDependency, invalidAttribute, unknownScope,
    duplicateName, invalidDeclaration].map fun kind => (kind.name, kind)

end DiagnosticKind

/-- A fault in a module. -/
structure Diagnostic where
  /-- The stage of linking that found the fault. -/
  stage : Nat
  kind : DiagnosticKind
  entity : String
  reference : Option String := none
  location : Option String := none
  related : List String := []
  message : String
deriving DecidableEq, Repr, Inhabited

namespace Diagnostic

/-- A name that cannot be declared. -/
def invalidName (entity : String) : Diagnostic where
  stage := 0
  kind := .invalidDeclaration
  entity := entity
  message := "invalid entity name " ++ Text.quoted entity ++
    ": names must be non-empty and cannot contain '.'"

/-- A name that is declared twice. -/
def duplicateName (entity : String) : Diagnostic where
  stage := 0
  kind := .duplicateName
  entity := entity
  message := "duplicate entity name " ++ Text.quoted entity

/-- An identifier that an earlier entity holds. -/
def identifierCollision (entity identifier owner : String) : Diagnostic where
  stage := 0
  kind := .duplicateName
  entity := entity
  reference := some owner
  related := [owner]
  message := "logical id " ++ Text.quoted identifier ++ " of " ++ Text.quoted entity ++
    " collides with " ++ Text.quoted owner

/-- A declaration that makes no entity. -/
def invalidDeclaration (entity message : String) : Diagnostic where
  stage := 0
  kind := .invalidDeclaration
  entity := entity
  message := message

/-- A reference to a name outside the module. -/
def missingReference (entity reference location : String) : Diagnostic where
  stage := 2
  kind := .missingReference
  entity := entity
  reference := some reference
  location := some location
  message := "reference to undefined entity " ++ Text.quoted reference

/-- A request for an attribute that its target does not have. -/
def invalidAttribute (entity target location message : String) : Diagnostic where
  stage := 2
  kind := .invalidAttribute
  entity := entity
  reference := some target
  location := some location
  message := message

/-- A scope entry that names no function. -/
def unknownScope (entity function : String) : Diagnostic where
  stage := 4
  kind := .unknownScope
  entity := entity
  reference := some function
  message := "scope names " ++ Text.quoted function ++ ", which is not a function"

/-- The line for a diagnostic. -/
def display (diagnostic : Diagnostic) : String :=
  match diagnostic.location with
  | some location => diagnostic.entity ++ " (" ++ location ++ "): " ++ diagnostic.message
  | none => diagnostic.entity ++ ": " ++ diagnostic.message

/-! ## Wire forms -/

/-- The full wire form, with null for what is absent. -/
def toJson (diagnostic : Diagnostic) : Json :=
  .object [
    ("entity", .string diagnostic.entity),
    ("kind", .string diagnostic.kind.name),
    ("location", .textOrNull diagnostic.location),
    ("message", .string diagnostic.message),
    ("pass", .nat diagnostic.stage),
    ("reference", .textOrNull diagnostic.reference),
    ("related", .texts diagnostic.related)]

/-- The compact wire form, without what is absent. -/
def toCompactJson (diagnostic : Diagnostic) : Json :=
  .object (
    [("pass", .nat diagnostic.stage), ("kind", .string diagnostic.kind.name),
      ("entity", .string diagnostic.entity)] ++
    (diagnostic.reference.toList.map fun r => ("reference", .string r)) ++
    (diagnostic.location.toList.map fun l => ("location", .string l)) ++
    (if diagnostic.related.isEmpty then [] else [("related", .texts diagnostic.related)]) ++
    [("message", .string diagnostic.message)])

/-- The fields of a diagnostic as they are read. -/
structure Draft where
  stage : Option Nat := none
  kind : Option DiagnosticKind := none
  entity : Option String := none
  reference : Option String := none
  location : Option String := none
  related : List String := []
  message : Option String := none

/-- The fields of the compact wire form. -/
def layout : Decode.Layout where
  name := "LinkError"
  fields := [("pass", false), ("kind", false), ("entity", false), ("reference", false),
    ("location", false), ("related", true), ("message", false)]
  ignoresUnknown := true

/-- Reads one field. -/
def Draft.set (field : String) (json : Json) (draft : Draft) : Decode.Result Draft :=
  match field with
  | "pass" => (Decode.byte json).map fun x => { draft with stage := some x }
  | "kind" =>
    (Decode.variant DiagnosticKind.variants json).map fun x => { draft with kind := some x }
  | "entity" => (Decode.string json).map fun x => { draft with entity := some x }
  | "reference" => (Decode.optional Decode.string json).map fun x => { draft with reference := x }
  | "location" => (Decode.optional Decode.string json).map fun x => { draft with location := x }
  | "related" => (Decode.list Decode.string json).map fun x => { draft with related := x }
  | "message" => (Decode.string json).map fun x => { draft with message := some x }
  | _ => .ok draft

/-- Reads the compact wire form. -/
def ofJson (json : Json) : Decode.Result Diagnostic := do
  let draft ← layout.read Draft.set {} json
  let stage ← Decode.required "pass" draft.stage
  let kind ← Decode.required "kind" draft.kind
  let entity ← Decode.required "entity" draft.entity
  let message ← Decode.required "message" draft.message
  return {
    stage := stage
    kind := kind
    entity := entity
    reference := draft.reference
    location := draft.location
    related := draft.related
    message := message }

end Diagnostic

/-- Why a link run failed. -/
inductive LinkFailure where
  | structural (error : StructuralError)
  | diagnostics (errors : List Diagnostic)

/-- The text of a failure. -/
def LinkFailure.message : LinkFailure → String
  | structural error => error.message
  | diagnostics errors => "linking failed with " ++ Nat.repr errors.length ++ " error(s)"

end StackLinker
