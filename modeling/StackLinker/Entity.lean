import StackLinker.Config
import StackLinker.Value

/-!
# Entities

An entity is a named member of a module.  Others refer to it by its full name and receive its
reference value; a resource or function also carries the declaration that the provider gets.  The
provider knows an entity by its identifier, the full name without separators.
-/

namespace StackLinker

/-- The kinds of entities. -/
inductive EntityKind where
  | value
  | input
  | resource
  | function
  | package
  | var
deriving DecidableEq, Repr, Inhabited

namespace EntityKind

/-- The word for a kind. -/
def name : EntityKind → String
  | value => "Value"
  | input => "Input"
  | resource => "Resource"
  | function => "Function"
  | package => "Package"
  | var => "Variable"

/-- All kinds with their words. -/
def variants : List (String × EntityKind) :=
  [value, input, resource, function, package, var].map fun kind => (kind.name, kind)

/-- Whether the provider manages entities of this kind, so that they may carry a declaration and
have attributes. -/
def isManaged : EntityKind → Bool
  | resource | function => true
  | _ => false

/-- Whether the provider knows entities of this kind by an identifier. -/
def hasIdentifier : EntityKind → Bool
  | input | resource | function => true
  | _ => false

theorem isManaged_iff {kind : EntityKind} :
    kind.isManaged = true ↔ kind = resource ∨ kind = function := by
  cases kind <;> simp [isManaged]

theorem hasIdentifier_iff {kind : EntityKind} :
    kind.hasIdentifier = true ↔ kind = input ∨ kind = resource ∨ kind = function := by
  cases kind <;> simp [hasIdentifier]

end EntityKind

/-- A flag that changes how an entity is treated. -/
inductive Pragma where
  /-- Attributes of the entity are not looked up in the catalog. -/
  | noTypeValidation
  | other (name : String)
deriving DecidableEq, Repr, Inhabited

namespace Pragma

/-- The word that switches off the catalog. -/
def noTypeValidationName : String := "no-type-validation"

/-- The pragma with a name. -/
def ofName (name : String) : Pragma :=
  if name = noTypeValidationName then noTypeValidation else other name

/-- The name of a pragma. -/
def name : Pragma → String
  | noTypeValidation => noTypeValidationName
  | other name => name

@[simp] theorem name_ofName (name : String) : (ofName name).name = name := by
  by_cases h : name = noTypeValidationName <;> simp [ofName, Pragma.name, h]

end Pragma

/-- A member of a module. -/
structure Entity where
  fullName : String
  kind : EntityKind
  /-- What others receive when they refer to the entity. -/
  reference : Value
  /-- The declaration for the provider. -/
  definition : Option Value := none
  /-- The functions that see the entity as an environment variable. -/
  scope : List String := []
  typeName : String := ""
  pragmas : List Pragma := []
deriving DecidableEq, Repr, Inhabited

namespace Entity

/-- Whether an entity carries a pragma. -/
def hasPragma (entity : Entity) (pragma : Pragma) : Bool :=
  entity.pragmas.contains pragma

/-- The identifier by which the provider knows an entity. -/
def logicalId (config : Config) (entity : Entity) : String :=
  Text.replaceAll config.separator "" entity.fullName

/-- The identifier with the preserve marker, which it carries until it is finalized. -/
def resourceName (config : Config) (entity : Entity) : String :=
  config.preserveMarker ++ entity.logicalId config

/-- Equality of entities, values compared by what they stand for. -/
def sameValue (a b : Entity) : Bool :=
  a.fullName == b.fullName && decide (a.kind = b.kind) && a.reference.sameValue b.reference &&
    (match a.definition, b.definition with
      | none, none => true
      | some x, some y => x.sameValue y
      | _, _ => false) &&
    a.scope == b.scope && a.typeName == b.typeName && decide (a.pragmas = b.pragmas)

end Entity

end StackLinker
