import StackLinker.FailureReport
import StackLinker.Finalization
import StackLinker.Template

/-!
# Linking

Linking takes a module graph to a module in which every reference is settled: identifiers are
checked, references resolved, deferred names finalized, and the environments of the functions
built.  Each stage runs only if the one before it succeeded.
-/

namespace StackLinker

/-- A linked module. -/
structure LinkedModule where
  graph : ModuleGraph
  environments : List FunctionEnvironment
  stats : Stats

/-- Links a module. -/
def ModuleGraph.link (config : Config) (catalog : Catalog) (graph : ModuleGraph) :
    Except LinkFailure LinkedModule :=
  let collisions := graph.identifierCollisions config
  if !collisions.isEmpty then .error (.diagnostics collisions)
  else
    match graph.partition with
    | .error e => .error (.structural e)
    | .ok partition =>
      match Resolver.resolve config catalog partition with
      | .error failure => .error failure
      | .ok (resolved, stats) =>
        match resolved.finalize config with
        | (_, some e) => .error (.structural e)
        | (finalized, none) =>
          match finalized.propagate config with
          | (_, .error errors) => .error (.diagnostics errors)
          | (graph, .ok environments) =>
            .ok { graph := graph, environments := environments, stats := stats }

/-- The wire form of an entity in a linked module. -/
def Entity.toJson (entity : Entity) : Json :=
  .object (
    [("name", .string entity.fullName), ("kind", .string entity.kind.name)] ++
    (if entity.typeName.isEmpty then [] else [("type", .string entity.typeName)]) ++
    [("value", entity.reference.toJson)] ++
    (entity.definition.toList.map fun definition => ("resource", definition.toJson)) ++
    (if entity.scope.isEmpty then [] else [("scope", .texts entity.scope)]))

namespace LinkedModule

/-- The template of a linked module. -/
def template (config : Config) (linked : LinkedModule) : Json :=
  linked.graph.template config linked.environments

/-- The wire form of the environments, by function. -/
def environmentsJson (environments : List FunctionEnvironment) : Json :=
  .object (environments.map fun environment => (environment.function, environment.toJson))

/-- The wire form of a linked module. -/
def toJson (linked : LinkedModule) : Json :=
  .object [
    ("module", .string linked.graph.name),
    ("entities", .array (linked.graph.entities.map Entity.toJson)),
    ("environments", environmentsJson linked.environments),
    ("stats", linked.stats.toJson)]

end LinkedModule

end StackLinker
