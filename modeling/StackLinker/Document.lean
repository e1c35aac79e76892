import StackLinker.Form
import StackLinker.ModuleGraph
import StackLinker.Value.Record

/-!
# Module documents

A document declares the entities of a module as a tree.  A child's full name is its parent's full
name, the separator, and its own name.  `ModuleGraph.ofDocument` goes through the declarations in
preorder, collects a diagnostic for each one that makes no entity, and still goes on to its
children.
-/

namespace StackLinker

/-- The declaration of an entity with those of its children. -/
structure EntityDeclaration where
  name : String
  kind : EntityKind
  typeName : Option String := none
  value : Option Json := none
  resource : Option Json := none
  scope : List String := []
  pragmas : List Pragma := []
  children : List EntityDeclaration := []

/-- A module as it is declared. -/
structure ModuleDocument where
  name : String
  entities : List EntityDeclaration := []

namespace EntityDeclaration

/-- The full name of a declaration under a parent. -/
def fullName (separator : String) : Option String → String → String
  | some parent, name => parent ++ separator ++ name
  | none, name => name

mutual

/-- A declaration and all below it in preorder, with their full names. -/
def listing (separator : String) (parent : Option String) :
    EntityDeclaration → List (String × EntityDeclaration)
  | ⟨name, kind, typeName, value, resource, scope, pragmas, children⟩ =>
    let full := fullName separator parent name
    (full, ⟨name, kind, typeName, value, resource, scope, pragmas, children⟩) ::
      listingAll separator (some full) children

/-- Several declarations and all below them in preorder. -/
def listingAll (separator : String) (parent : Option String) :
    List EntityDeclaration → List (String × EntityDeclaration)
  | [] => []
  | child :: rest => listing separator parent child ++ listingAll separator parent rest

end

/-- The provider declaration of an entity.  Only managed kinds may have one. -/
def definition (fullName : String) (declaration : EntityDeclaration) :
    Except Diagnostic (Option Record) :=
  match declaration.resource with
  | none => .ok none
  | some json =>
    if declaration.kind.isManaged then
      match Record.ofJson json with
      | .ok record => .ok (some record)
      | .error e =>
        .error (.invalidDeclaration fullName ("invalid resource declaration: " ++ e.message))
    else
      .error (.invalidDeclaration fullName
        ("a " ++ declaration.kind.name ++ " cannot declare a resource"))

/-- The type of an entity: as declared, else that of its provider declaration. -/
def effectiveType (declaration : EntityDeclaration) (definition : Option Record) : String :=
  match declaration.typeName, definition with
  | some typeName, _ => typeName
  | none, some record => record.header.typeName
  | none, none => ""

/-- The entity that a declaration makes.  Without a value, an entity with an identifier stands for
that identifier; other kinds must have a value. -/
def toEntity (config : Config) (fullName : String) (declaration : EntityDeclaration) :
    Except Diagnostic Entity := do
  let definition ← declaration.definition fullName
  let entity : Entity := {
    fullName := fullName
    kind := declaration.kind
    reference := .null
    definition := definition.map Record.toValue
    scope := declaration.scope
    typeName := declaration.effectiveType definition
    pragmas := declaration.pragmas }
  match declaration.value with
  | some json => return { entity with reference := Value.ofJson json }
  | none =>
    if declaration.kind.hasIdentifier then
      return { entity with reference := .ref (entity.resourceName config) }
    else
      throw (.invalidDeclaration fullName
        (declaration.kind.name ++ " " ++ Text.quoted fullName ++ " has no value"))

end EntityDeclaration

namespace ModuleDocument

/-- All declarations of a document in preorder, with their full names. -/
def listing (config : Config) (document : ModuleDocument) : List (String × EntityDeclaration) :=
  EntityDeclaration.listingAll config.separator none document.entities

end ModuleDocument

namespace ModuleGraph

/-- Adds what a declaration makes, if it makes an entity that can be added. -/
def declare (config : Config) (graph : ModuleGraph) (fullName : String)
    (declaration : EntityDeclaration) : Except Diagnostic ModuleGraph :=
  (declaration.toEntity config fullName).bind graph.add

/-- Adds the declarations of a listing one after the other and collects what goes wrong. -/
def declareAll (config : Config) :
    List (String × EntityDeclaration) → ModuleGraph → ModuleGraph × List Diagnostic
  | [], graph => (graph, [])
  | (fullName, declaration) :: rest, graph =>
    match graph.declare config fullName declaration with
    | .ok graph => declareAll config rest graph
    | .error e =>
      let declared := declareAll config rest graph
      (declared.1, e :: declared.2)

/-- The graph that a document declares, or all that is wrong with it. -/
def ofDocument (config : Config) (document : ModuleDocument) :
    Except (List Diagnostic) ModuleGraph :=
  let declared := declareAll config (document.listing config) { name := document.name }
  let errors := declared.2 ++ declared.1.identifierCollisions config
  if errors.isEmpty then .ok declared.1 else .error errors

end ModuleGraph

end StackLinker
