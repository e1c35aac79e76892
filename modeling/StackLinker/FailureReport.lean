import StackLinker.Dependency
import StackLinker.Resolver

/-!
# Reports on entities that stay bound

When resolution has settled with entities still bound, each of them is accounted for.  Missing
references and invalid attributes are reported one by one.  Each group of entities that wait for
each other is one circular dependency.  An entity outside every group that misses nothing itself
only waits for others, and is reported as blocked.
-/

namespace StackLinker

namespace Pending

/-- The name of a bound entity. -/
def name (pending : Pending) : String := pending.entity.fullName

/-- The bound entities that the latest pass met. -/
def waitsOn (pending : Pending) : List Unresolved :=
  (pending.attempt.map Outcome.bound).getD []

/-- The names outside the module that the latest pass met. -/
def missing (pending : Pending) : List Unresolved :=
  (pending.attempt.map Outcome.missing).getD []

/-- The attributes that the latest pass refused. -/
def invalid (pending : Pending) : List Diagnostic :=
  (pending.attempt.map Outcome.invalid).getD []

/-- What is wrong in the reference of a bound entity itself. -/
def ownDiagnostics (pending : Pending) : List Diagnostic :=
  (pending.missing.map fun u => .missingReference pending.name u.key u.path.text) ++
    pending.invalid

/-- The bound entity with a name. -/
def find? (name : String) : List Pending → Option Pending
  | [] => none
  | pending :: rest => if pending.name = name then some pending else find? name rest

end Pending

namespace FailureReport

/-- The names of bound entities. -/
def names (waiting : List Pending) : List String :=
  waiting.map Pending.name

/-- The bound entities that each bound entity waits for. -/
def graph (waiting : List Pending) : Dependency.Graph :=
  let names := names waiting
  waiting.map fun pending =>
    (pending.name, (pending.waitsOn.map (·.key)).filter fun key => names.contains key)

/-- The groups of entities that wait for each other. -/
def cycles (waiting : List Pending) : List (List String) :=
  Dependency.cycles (graph waiting)

/-- The references inside a group, each with the entity that holds it. -/
def links (waiting : List Pending) (group : List String) : List (String × Unresolved) :=
  group.flatMap fun name =>
    match Pending.find? name waiting with
    | some pending =>
      (pending.waitsOn.filter fun u => group.contains u.key).map fun u => (name, u)
    | none => []

/-- The diagnostic for a group of entities that wait for each other. -/
def circular (waiting : List Pending) (group : List String) : Diagnostic :=
  let links := links waiting group
  { stage := 2
    kind := .circularDependency
    entity := group.headD ""
    reference := links.head?.map (·.2.key)
    location := links.head?.map (·.2.path.text)
    related := group.tail
    message := "circular dependency between " ++ Text.join ", " group ++ ": " ++
      Text.join ", " (links.map fun link => link.1 ++ " -> " ++ link.2.key) }

/-- The diagnostic for an entity that only waits for others, if it is one. -/
def blocked? (cycles : List (List String)) (pending : Pending) : Option Diagnostic :=
  match pending.waitsOn with
  | [] => none
  | head :: _ =>
    if cycles.any (·.contains pending.name) || !pending.missing.isEmpty then none
    else
      let waitsOn := (pending.waitsOn.map (·.key)).eraseDups
      some {
        stage := 2
        kind := .blockedDependency
        entity := pending.name
        reference := some head.key
        location := some head.path.text
        related := waitsOn
        message := Text.quoted pending.name ++ " waits on unresolved " ++
          Text.join ", " (waitsOn.map Text.quoted) }

/-- The diagnostics for entities that stay bound. -/
def unresolved (waiting : List Pending) : List Diagnostic :=
  let cycles := cycles waiting
  waiting.flatMap Pending.ownDiagnostics ++ cycles.map (circular waiting) ++
    waiting.filterMap (blocked? cycles)

end FailureReport

namespace Resolver

/-- Substitutes inside the declaration of an entity.  Names of bound entities are skipped, since
those are reported on their own account. -/
def linkDefinition (around : Surroundings) (entity : Entity) :
    Except StructuralError (Entity × List Diagnostic) :=
  match entity.definition with
  | none => .ok (entity, [])
  | some definition =>
    (around.apply entity.fullName definition).map fun applied =>
      ({ entity with definition := some applied.1 },
        (applied.2.missing.map fun u => .missingReference entity.fullName u.key u.path.text) ++
          applied.2.invalid)

/-- Substitutes inside the declaration of an entity if the entity is free. -/
def linkFree (around : Surroundings) (entity : Entity) :
    Except StructuralError (Entity × List Diagnostic) :=
  if (Entity.find? entity.fullName around.free).isSome then linkDefinition around entity
  else .ok (entity, [])

/-- Substitutes inside the declarations of the free entities, in the order of declaration. -/
def linkDefinitions (around : Surroundings) :
    List Entity → Except StructuralError (List Entity × List Diagnostic)
  | [] => .ok ([], [])
  | entity :: rest =>
    match linkFree around entity with
    | .error e => .error e
    | .ok linked =>
      (linkDefinitions around rest).map fun others =>
        (linked.1 :: others.1, linked.2 ++ others.2)

/-- Links the declarations of a settled resolver, reports what stayed bound, and hands back the
module when nothing failed. -/
def conclude (resolver : Resolver) : Except LinkFailure (ModuleGraph × Stats) :=
  let graph := resolver.partition.toGraph
  match linkDefinitions resolver.surroundings graph.entities with
  | .error e => .error (.structural e)
  | .ok linked =>
    let diagnostics :=
      resolver.diagnostics ++ FailureReport.unresolved resolver.waiting ++ linked.2
    if diagnostics.isEmpty then .ok ({ graph with entities := linked.1 }, resolver.stats)
    else .error (.diagnostics diagnostics)

/-- Settles the resolver unless it is settled, and concludes. -/
def finish (resolver : Resolver) : Except LinkFailure (ModuleGraph × Stats) :=
  let last := if resolver.settled then (resolver, none) else resolver.run
  match last.2 with
  | some e => .error (.structural e)
  | none => last.1.conclude

/-- Resolves a partition from start to finish. -/
def resolve (config : Config) (catalog : Catalog) (partition : Partition) :
    Except LinkFailure (ModuleGraph × Stats) :=
  let last := (start config catalog partition).run
  match last.2 with
  | some e => .error (.structural e)
  | none => last.1.finish

end Resolver

end StackLinker
