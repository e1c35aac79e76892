import StackLinker.Environment

/-!
# Provider templates

The template of a module has a parameter for each input and a resource for each managed entity
with a declaration, both under the entity's identifier.  The environment variables of a function
are merged into its declaration; variables that the declaration sets itself win.
-/

namespace StackLinker

namespace Json

/-- Changes the value of a member; an absent member is added as an empty object first.  A tree
that is no object stays as it is. -/
def updateMember (key : String) (update : Json → Json) : Json → Json
  | .object members =>
    let found := (Fields.find? key members).getD (.object [])
    .object (Fields.insert key (update found) members)
  | other => other

/-- Adds members that an object does not have yet.  A tree that is no object stays as it is. -/
def addMembers (additions : List (String × Json)) : Json → Json
  | .object members =>
    .object (additions.foldl (fun ms addition => Fields.insertNew addition.1 addition.2 ms) members)
  | other => other

end Json

namespace FunctionEnvironment

/-- Merges environment variables into a written declaration. -/
def inject (environment : FunctionEnvironment) (declaration : Json) : Json :=
  if environment.bindings.isEmpty then declaration
  else
    declaration.updateMember "Properties" <| Json.updateMember "Environment" <|
      Json.updateMember "Variables" <|
        Json.addMembers (environment.bindings.map fun (name, value) => (name, value.toJson))

end FunctionEnvironment

namespace Entity

/-- The parameter for an input. -/
def parameter (config : Config) (entity : Entity) : Json :=
  let isSecret := decide (entity.typeName = config.secretType)
  let typeName := if entity.typeName.isEmpty || isSecret then "String" else entity.typeName
  .object (("Type", .string typeName) :: if isSecret then [("NoEcho", .bool true)] else [])

/-- The parameter of an entity with its identifier, if the entity is an input. -/
def parameter? (config : Config) (entity : Entity) : Option (String × Json) :=
  if entity.kind = .input then some (entity.logicalId config, entity.parameter config) else none

/-- The resource of an entity with its identifier, if the entity is managed and declared. -/
def resource? (config : Config) (environments : List FunctionEnvironment) (entity : Entity) :
    Option (String × Json) :=
  if entity.kind.isManaged then
    entity.definition.map fun definition =>
      (entity.logicalId config,
        match FunctionEnvironment.find? entity.fullName environments with
        | some environment => environment.inject definition.toJson
        | none => definition.toJson)
  else none

end Entity

namespace ModuleGraph

/-- The version of the template format. -/
def templateVersion : String := "2010-09-09"

/-- The parameters of a module by identifier. -/
def parameters (config : Config) (graph : ModuleGraph) : Fields Json :=
  Fields.ofPairs (graph.entities.filterMap (Entity.parameter? config))

/-- The resources of a module by identifier. -/
def resources (config : Config) (environments : List FunctionEnvironment) (graph : ModuleGraph) :
    Fields Json :=
  Fields.ofPairs (graph.entities.filterMap (Entity.resource? config environments))

/-- The template of a module.  Without inputs it has no parameters. -/
def template (config : Config) (environments : List FunctionEnvironment) (graph : ModuleGraph) :
    Json :=
  let parameters := graph.parameters config
  .object (
    [("AWSTemplateFormatVersion", .string templateVersion), ("Description", .string graph.name)] ++
    (if parameters.isEmpty then [] else [("Parameters", .object parameters)]) ++
    [("Resources", .object (graph.resources config environments))])

end ModuleGraph

end StackLinker
