import StackLinker.Document
import StackLinker.Proofs.Module.Identifiers

/-!
# Declared modules

What it means that a document is accepted: every declaration makes an entity, the module has these
entities in the order of the listing, and both full names and identifiers are distinct
(`declared_of_ofDocument`).
-/

namespace StackLinker

namespace EntityDeclaration

variable {config : Config} {name : String} {declaration : EntityDeclaration} {entity : Entity}

/-- A declaration for the provider is not lost. -/
theorem isSome_of_definition {definition : Option Record}
    (h : declaration.definition name = .ok definition) :
    definition.isSome = declaration.resource.isSome := by
  unfold EntityDeclaration.definition at h
  split at h
  · rename_i hnone
    simp [hnone, ← Except.ok.inj h]
  · rename_i json hjson
    split at h
    · split at h
      · simp [hjson, ← Except.ok.inj h]
      · simp at h
    · simp at h

/-- What a declaration says about its entity. -/
structure Declares (config : Config) (name : String) (declaration : EntityDeclaration)
    (entity : Entity) : Prop where
  fullName : entity.fullName = name
  kind : entity.kind = declaration.kind
  definition : entity.definition.isSome = declaration.resource.isSome
  value : ∀ json, declaration.value = some json → entity.reference = .ofJson json
  /-- Without a value, an entity stands for the resource under its identifier. -/
  resource : declaration.value = none →
    entity.kind.hasIdentifier = true ∧ entity.reference = .ref (entity.resourceName config)

theorem declares_of_toEntity (h : declaration.toEntity config name = .ok entity) :
    Declares config name declaration entity := by
  unfold toEntity at h
  cases hdefinition : declaration.definition name with
  | error e => simp [hdefinition, bind, Except.bind] at h
  | ok definition =>
      have hsome := isSome_of_definition hdefinition
      simp only [hdefinition, bind, Except.bind, pure, Except.pure] at h
      split at h
      · rename_i json hjson
        obtain rfl := Except.ok.inj h
        exact ⟨rfl, rfl, by simp [hsome], fun other hother => by simp_all, by simp [hjson]⟩
      · rename_i hnone
        split at h
        · rename_i hkind
          obtain rfl := Except.ok.inj h
          exact ⟨rfl, rfl, by simp [hsome], by simp [hnone], fun _ => ⟨hkind, rfl⟩⟩
        · simp [throw, throwThe, MonadExceptOf.throw] at h

end EntityDeclaration

namespace ModuleGraph

variable {config : Config} {document : ModuleDocument} {graph start : ModuleGraph}

/-- Declarations are added one by one, at the end. -/
theorem declareAll_eq {listing : List (String × EntityDeclaration)} (hstart : start.Valid)
    (h : declareAll config listing start = (graph, [])) :
    graph.Valid ∧ ∃ entities, graph.entities = start.entities ++ entities ∧
      List.Forall₂ (fun declared entity => declared.2.toEntity config declared.1 = .ok entity)
        listing entities := by
  induction listing generalizing start with
  | nil =>
      obtain rfl : start = graph := congrArg Prod.fst h
      exact ⟨hstart, [], by simp, .nil⟩
  | cons declared rest ih =>
      obtain ⟨name, declaration⟩ := declared
      simp only [declareAll] at h
      split at h
      · rename_i next hnext
        unfold declare at hnext
        cases hentity : declaration.toEntity config name with
        | error e => simp [hentity, Except.bind] at hnext
        | ok entity =>
            have hadd : start.add entity = .ok next := by
              simpa [hentity, Except.bind] using hnext
            obtain ⟨hvalid, entities, hgraph, hrest⟩ := ih (hstart.add hadd) h
            refine ⟨hvalid, entity :: entities, ?_, .cons hentity hrest⟩
            have hlast : next.entities = start.entities ++ [entity] := by
              unfold add at hadd
              split at hadd
              · simp at hadd
              · split at hadd
                · simp at hadd
                · rw [← Except.ok.inj hadd]
            rw [hgraph, hlast, List.append_assoc, List.singleton_append]
      · simp at h

/-- What it means that a document is accepted. -/
structure Declared (config : Config) (document : ModuleDocument) (graph : ModuleGraph) : Prop where
  valid : graph.Valid
  /-- Identifiers are distinct. -/
  identifiers : (Entity.identifiers config graph.entities).Nodup
  /-- The entities are those of the listing, in its order. -/
  entities : List.Forall₂
    (fun declared entity => declared.2.toEntity config declared.1 = .ok entity)
    (document.listing config) graph.entities

theorem declared_of_ofDocument (h : ofDocument config document = .ok graph) :
    graph.Declared config document := by
  simp only [ofDocument] at h
  split at h
  · rename_i hempty
    rw [List.isEmpty_iff, List.append_eq_nil_iff] at hempty
    obtain rfl := Except.ok.inj h
    obtain ⟨hvalid, entities, hentities, hall⟩ :=
      declareAll_eq (valid_empty document.name) (Prod.ext rfl hempty.1)
    refine ⟨hvalid, identifierCollisions_eq_nil_iff.1 hempty.2, ?_⟩
    rwa [hentities]
  · simp at h

end ModuleGraph

end StackLinker
