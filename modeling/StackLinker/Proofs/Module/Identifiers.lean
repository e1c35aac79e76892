import StackLinker.Proofs.Module.Lookup
import StackLinker.Proofs.Value.Mapping
import StackLinker.Template

/-!
# Identifiers

The provider knows an entity by its identifier.  A module without collisions gives distinct
identifiers to the entities that have one (`identifierCollisions_eq_nil_iff`), so nothing in a
template overwrites anything else: what an entity declares stands under its own identifier
(`find?_parameters`, `find?_resources`).
-/

namespace StackLinker

namespace Entity

/-- The identifiers of the entities that have one, in order. -/
def identifiers (config : Config) (entities : List Entity) : List String :=
  (entities.filter fun entity => entity.kind.hasIdentifier).map (logicalId config)

variable {config : Config} {entities others : List Entity} {entity : Entity}

/-- Entities declare under their identifiers. -/
theorem keys_filterMap_sublist {α : Type} {declare : Entity → Option (String × α)}
    (h : ∀ entity pair, declare entity = some pair →
      entity.kind.hasIdentifier = true ∧ pair.1 = entity.logicalId config)
    (entities : List Entity) :
    (Fields.keys (entities.filterMap declare)).Sublist (identifiers config entities) := by
  induction entities with
  | nil => exact List.Sublist.slnil
  | cons entity rest ih =>
      unfold identifiers at ih ⊢
      cases hdeclare : declare entity with
      | none =>
          rw [List.filterMap_cons_none hdeclare]
          exact ih.trans (((List.sublist_cons_self entity rest).filter _).map _)
      | some pair =>
          obtain ⟨hkind, hkey⟩ := h entity pair hdeclare
          rw [List.filterMap_cons_some hdeclare, List.filter_cons_of_pos (by simpa using hkind)]
          simpa [Fields.keys, hkey] using ih.cons_cons (entity.logicalId config)

/-- An input declares its parameter under its identifier. -/
theorem declares_parameter? {pair : String × Json} (h : entity.parameter? config = some pair) :
    entity.kind.hasIdentifier = true ∧ pair.1 = entity.logicalId config := by
  simp only [parameter?, Option.ite_none_right_eq_some, Option.some.injEq] at h
  obtain ⟨hinput, rfl⟩ := h
  exact ⟨by rw [hinput]; rfl, rfl⟩

theorem hasIdentifier_of_isManaged (h : entity.kind.isManaged = true) :
    entity.kind.hasIdentifier = true := by
  cases hkind : entity.kind <;> simp_all [EntityKind.isManaged, EntityKind.hasIdentifier]

/-- A managed entity declares its resource under its identifier. -/
theorem declares_resource? {environments : List FunctionEnvironment} {pair : String × Json}
    (h : entity.resource? config environments = some pair) :
    entity.kind.hasIdentifier = true ∧ pair.1 = entity.logicalId config := by
  unfold resource? at h
  split at h
  · rename_i hmanaged
    obtain ⟨definition, -, rfl⟩ := Option.map_eq_some_iff.1 h
    exact ⟨hasIdentifier_of_isManaged hmanaged, rfl⟩
  · simp at h

end Entity

namespace ModuleGraph

variable {config : Config} {graph : ModuleGraph} {entity : Entity}

theorem collisionsFrom_eq_nil_iff {owners : Fields String} {entities : List Entity} :
    collisionsFrom config owners entities = [] ↔
      (Entity.identifiers config entities).Nodup ∧
        ∀ identifier ∈ Entity.identifiers config entities, identifier ∉ owners.keys := by
  induction entities generalizing owners with
  | nil => simp [collisionsFrom, Entity.identifiers]
  | cons entity rest ih =>
      unfold Entity.identifiers at ih ⊢
      cases hkind : entity.kind.hasIdentifier with
      | false => simp [collisionsFrom, hkind, ih]
      | true =>
          cases howner : owners.find? (entity.logicalId config) with
          | some owner =>
              have hmem : entity.logicalId config ∈ owners.keys := by
                rw [← Fields.contains_iff_mem_keys, Fields.contains, howner]
                rfl
              simp [collisionsFrom, hkind, howner, hmem]
          | none =>
              have hnew : entity.logicalId config ∉ owners.keys := by
                rw [← Fields.contains_iff_mem_keys, Fields.contains, howner]
                simp
              simp only [collisionsFrom, hkind, howner, if_true, ih, Fields.keys_insert,
                if_neg hnew]
              rw [List.filter_cons_of_pos (by simpa using hkind), List.map_cons, List.nodup_cons]
              generalize (rest.filter fun other => other.kind.hasIdentifier).map
                (Entity.logicalId config) = identifiers
              simp only [List.mem_append, List.mem_singleton, not_or, List.forall_mem_cons]
              constructor
              · rintro ⟨hnodup, hnot⟩
                exact ⟨⟨fun hmem => (hnot _ hmem).2 rfl, hnodup⟩, hnew,
                  fun id hid => (hnot id hid).1⟩
              · rintro ⟨⟨hself, hnodup⟩, -, hnot⟩
                exact ⟨hnodup, fun id hid => ⟨hnot id hid, fun heq => hself (heq ▸ hid)⟩⟩

/-- Without collisions, identifiers are distinct. -/
theorem identifierCollisions_eq_nil_iff :
    graph.identifierCollisions config = [] ↔
      (Entity.identifiers config graph.entities).Nodup := by
  simp [identifierCollisions, collisionsFrom_eq_nil_iff, Fields.keys]

theorem nodup_keys_parameters (hnodup : (Entity.identifiers config graph.entities).Nodup) :
    (Fields.keys (graph.entities.filterMap (Entity.parameter? config))).Nodup :=
  hnodup.sublist
    (Entity.keys_filterMap_sublist (fun _ _ => Entity.declares_parameter?) graph.entities)

theorem nodup_keys_resources (hnodup : (Entity.identifiers config graph.entities).Nodup)
    (environments : List FunctionEnvironment) :
    (Fields.keys (graph.entities.filterMap (Entity.resource? config environments))).Nodup :=
  hnodup.sublist
    (Entity.keys_filterMap_sublist (fun _ _ => Entity.declares_resource?) graph.entities)

/-- The parameters are listed as the entities declare them. -/
theorem parameters_eq (hnodup : (Entity.identifiers config graph.entities).Nodup) :
    graph.parameters config = graph.entities.filterMap (Entity.parameter? config) :=
  Fields.ofPairs_of_nodup (nodup_keys_parameters hnodup)

theorem resources_eq (hnodup : (Entity.identifiers config graph.entities).Nodup)
    (environments : List FunctionEnvironment) :
    graph.resources config environments =
      graph.entities.filterMap (Entity.resource? config environments) :=
  Fields.ofPairs_of_nodup (nodup_keys_resources hnodup environments)

theorem find?_parameters (hnodup : (Entity.identifiers config graph.entities).Nodup)
    (hentity : entity ∈ graph.entities) (hkind : entity.kind = .input) :
    (graph.parameters config).find? (entity.logicalId config) = some (entity.parameter config) := by
  rw [parameters_eq hnodup]
  exact Fields.find?_of_mem (nodup_keys_parameters hnodup)
    (List.mem_filterMap.2 ⟨entity, hentity, if_pos hkind⟩)

theorem find?_resources {environments : List FunctionEnvironment}
    (hnodup : (Entity.identifiers config graph.entities).Nodup)
    (hentity : entity ∈ graph.entities) {key : String} {declaration : Json}
    (h : entity.resource? config environments = some (key, declaration)) :
    (graph.resources config environments).find? key = some declaration := by
  rw [resources_eq hnodup]
  exact Fields.find?_of_mem (nodup_keys_resources hnodup environments)
    (List.mem_filterMap.2 ⟨entity, hentity, h⟩)

theorem member?_template_resources (environments : List FunctionEnvironment) :
    (graph.template config environments).member? "Resources" =
      some (.object (graph.resources config environments)) := by
  unfold template Json.member?
  cases h : (graph.parameters config).isEmpty <;> simp [h, Fields.find?]

theorem member?_template_parameters (h : graph.parameters config ≠ [])
    (environments : List FunctionEnvironment) :
    (graph.template config environments).member? "Parameters" =
      some (.object (graph.parameters config)) := by
  simp [template, Json.member?, h, Fields.find?]

end ModuleGraph

end StackLinker
