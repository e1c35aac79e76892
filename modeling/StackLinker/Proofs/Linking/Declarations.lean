import StackLinker.Proofs.Linking.Finalization
import StackLinker.Proofs.Resolution.LastingMaps
import StackLinker.Proofs.Value.Records

/-!
# Linked declarations

A declaration is refused when it is read with a section that is no map.  Later stages do not look at
the sections again, and to them a section is a node like any other: a section that consists of a
single reference or substitution gives way to whatever its target is.  So a declaration may be
linked with a text for its properties, which nobody would read any more and into which no
environment can be merged (`flattens_properties`).

If the sections end up as maps (`ModuleGraph.GivesMap`), then linked declarations are declarations:
they are read back from their wire forms, and what the template renders of them has maps for its
sections (`declarations_of_link`).
-/

namespace StackLinker

variable {config : Config} {catalog : Catalog} {graph : ModuleGraph} {linked : LinkedModule}

/-! ## Rendering -/

namespace Json

/-- Whether a written declaration has properties, and nothing but objects for its sections. -/
structure HasMapSections (json : Json) : Prop where
  properties : ∃ members, json.member? "Properties" = some (.object members)
  metadata : ∀ written, json.member? "Metadata" = some written →
    ∃ members, written = .object members

variable {json : Json}

theorem member?_updateMember (key : String) (update : Json → Json)
    (members : List (String × Json)) (other : String) :
    (updateMember key update (.object members)).member? other =
      if other = key then some (update ((Fields.find? key members).getD (.object [])))
      else Fields.find? other members := by
  simp only [updateMember, member?, Fields.find?_insert]

/-- Merging an environment leaves sections that are maps. -/
theorem HasMapSections.inject (h : json.HasMapSections) (environment : FunctionEnvironment) :
    (environment.inject json).HasMapSections := by
  unfold FunctionEnvironment.inject
  split
  · exact h
  · obtain ⟨properties, hproperties⟩ := h.properties
    cases json with
    | object members =>
        refine ⟨?_, fun metadata hmetadata => h.metadata metadata ?_⟩
        · rw [member?] at hproperties
          rw [member?_updateMember, if_pos rfl, hproperties]
          exact ⟨_, rfl⟩
        · rwa [member?_updateMember, if_neg (by decide)] at hmetadata
    | _ => simp [member?] at hproperties

end Json

/-- A declaration is written with maps for its sections. -/
theorem Value.IsDeclaration.hasMapSections {v : Value} (h : v.IsDeclaration) :
    v.toJson.HasMapSections := by
  obtain ⟨header, metadata, properties, rfl⟩ := isDeclaration_iff.1 h
  have hkeys := Record.keys_recordMembers header (Value.map metadata).isEmptyMap
    (Value.map metadata).toJson (Value.map properties).toJson
  rw [toJson_record]
  refine ⟨⟨toJsonEntries properties, ?_⟩, fun json hjson => ⟨toJsonEntries metadata, ?_⟩⟩
  · refine Fields.find?_of_mem (hkeys.nodup (by decide)) ?_
    simp [recordMembers, toJson_map]
  · -- No other field has this key.
    have hmem : (Value.map metadata).isEmptyMap = false ∧
        json = .object (toJsonEntries metadata) := by
      simpa [recordMembers, toJson_map] using Fields.mem_of_find? hjson
    exact hmem.2

/-- Finalization leaves the sections of a declaration maps. -/
theorem Value.isDeclaration_of_finalize {header : Header} {metadata properties w : Value}
    {path : Path} (hmetadata : metadata.isLasting config = true)
    (hproperties : properties.isLasting config = true)
    (h : (Value.record header metadata properties).Rewrites config.finalizeRule path () w ()) :
    w.IsDeclaration := by
  have hrewrites : (Value.record header metadata properties).Rewrites
      (Rule.ofForms config.bareAction) path () w () := h
  obtain ⟨x, y, _, rfl, hx, hy⟩ := rewrites_record_iff.1 hrewrites
  obtain ⟨entries, rfl⟩ := exists_map_of_isLasting hmetadata
  obtain ⟨others, rfl⟩ := exists_map_of_isLasting hproperties
  obtain ⟨written, rfl⟩ := exists_map_of_rewrites config.keepsMaps_bareAction hx
  obtain ⟨rest, rfl⟩ := exists_map_of_rewrites config.keepsMaps_bareAction hy
  exact isDeclaration_iff.2 ⟨header, written, rest, rfl⟩

namespace Entity

theorem hasMapSections_of_resource? {environments : List FunctionEnvironment} {entity : Entity}
    {entry : String × Json}
    (hdeclared : ∀ definition, entity.definition = some definition → definition.IsDeclaration)
    (h : entity.resource? config environments = some entry) : entry.2.HasMapSections := by
  unfold resource? at h
  split at h
  · obtain ⟨definition, hdefinition, rfl⟩ := Option.map_eq_some_iff.1 h
    have hsections := (hdeclared definition hdefinition).hasMapSections
    simp only
    split
    · exact hsections.inject _
    · exact hsections
  · simp at h

end Entity

namespace LinkedModule

/-- If every section of a declaration ends up as a map, then the declarations of a linked module are
read back from their wire forms, and their sections are maps wherever they are rendered. -/
theorem declarations_of_link (hvalid : graph.Valid)
    (hgives : ∀ entity ∈ graph.entities, ∀ definition, entity.definition = some definition →
      definition.HasSections (graph.GivesMap config))
    (h : graph.link config catalog = .ok linked) :
    (∀ entity ∈ linked.graph.entities, ∀ definition, entity.definition = some definition →
      definition.IsDeclaration) ∧
    ∀ entry ∈ linked.graph.resources config linked.environments, entry.2.HasMapSections := by
  obtain ⟨partition, resolved, stats, finalized, hpartition, hresolve, hfinalize, ⟨functions,
    hlinked⟩, -⟩ := ModuleGraph.link_eq_ok h
  have hdeclared : ∀ entity ∈ linked.graph.entities, ∀ definition,
      entity.definition = some definition → definition.IsDeclaration := by
    rw [hlinked, List.forall_mem_map]
    intro done hdone definition hdefinition
    obtain ⟨entity, hentity, hfinal⟩ :=
      (Entity.forall₂_of_finalizeAll hfinalize).exists_of_mem_right hdone
    obtain ⟨resolved, hsome, hrewrites⟩ := Option.Rel.exists_of_eq_some
      (Entity.corresponds_of_finalize hfinal).definition hdefinition
    obtain ⟨header, metadata, properties, rfl, hmetadata, hproperties⟩ :=
      Resolver.sections_of_resolve hvalid hpartition hresolve hgives entity hentity resolved hsome
    exact Value.isDeclaration_of_finalize hmetadata hproperties hrewrites
  refine ⟨hdeclared, fun entry hentry => ?_⟩
  obtain ⟨entity, hentity, hresource⟩ := List.mem_filterMap.1 (Fields.mem_of_mem_ofPairs hentry)
  exact Entity.hasMapSections_of_resource? (hdeclared entity hentity) hresource

/-- A function whose properties are those of another entity, found along a chain of references, and
whose metadata is the reference to a resource, which has properties of its own. -/
def shared : ModuleGraph where
  name := "Main"
  entities := [
    { fullName := "Run"
      kind := .function
      reference := .ref "@Run"
      definition := some (.record { typeName := "Function", dependsOn := ["Queue"] }
        (.ref "@Queue") (.ref "Settings"))
      typeName := "Function" },
    .value "Settings" (.ref "Defaults"),
    .value "Defaults" (.map [("Memory", .ref "Size")]),
    { fullName := "Size", kind := .value, reference := .string "256", scope := ["Run"] },
    { fullName := "Queue"
      kind := .resource
      reference := .ref "@Queue"
      definition := some (.record { typeName := "Queue" } (.map []) (.map [
        ("Owner", .getAtt "Run" "Arn"), ("Name", .sub "q-${Size}" [])]))
      typeName := "Queue" }]

theorem declarations_of_link_shared :
    shared.Valid ∧
      (∀ entity ∈ shared.entities, ∀ definition, entity.definition = some definition →
        definition.HasSections (shared.GivesMap {})) ∧
      ∃ linked, shared.link {} .permissive = .ok linked ∧
        (∀ entity ∈ linked.graph.entities, ∀ definition, entity.definition = some definition →
          definition.IsDeclaration) ∧
        ∀ entry ∈ linked.graph.resources {} linked.environments, entry.2.HasMapSections := by
  have hvalid : shared.Valid := ⟨by decide, by decide +kernel⟩
  have hsettings : shared.GivesMap {} (.ref "Settings") :=
    .forward rfl (.forward rfl (.lasting rfl))
  have hgives : ∀ entity ∈ shared.entities, ∀ definition,
      entity.definition = some definition → definition.HasSections (shared.GivesMap {}) := by
    intro entity hentity definition hdefinition
    simp only [shared, List.mem_cons, List.not_mem_nil, or_false] at hentity
    rcases hentity with rfl | rfl | rfl | rfl | rfl <;> cases hdefinition
    · exact ⟨_, _, _, rfl, .lasting (by decide +kernel), hsettings⟩
    · exact ⟨_, _, _, rfl, .lasting rfl, .lasting rfl⟩
  have hlinks : (shared.link {} .permissive).toOption.isSome = true := by decide +kernel
  obtain ⟨linked, hlinked⟩ := Option.isSome_iff_exists.1 hlinks
  have hlink := Resolver.eq_ok_of_toOption hlinked
  exact ⟨hvalid, hgives, linked, hlink, declarations_of_link hvalid hgives hlink⟩

/-- A function whose properties are a text that another entity holds, and which sees that entity. -/
def flattened : ModuleGraph where
  name := "Main"
  entities := [
    { fullName := "Run"
      kind := .function
      reference := .ref "@Run"
      definition := some (.record { typeName := "Function" } (.map []) (.ref "V"))
      typeName := "Function" },
    { fullName := "V", kind := .value, reference := .string "v", scope := ["Run"] }]

/-- The declaration is read as it should be.  After linking it has a text for its properties: it is
not read back, and the environment of the function is not in the template. -/
theorem flattens_properties :
    flattened.Valid ∧
      (∀ entity ∈ flattened.entities, ∀ definition, entity.definition = some definition →
        ∃ json record, Record.ofJson json = .ok record ∧ definition = record.toValue) ∧
      ∃ linked, flattened.link {} .permissive = .ok linked ∧
        linked.environments = [⟨"Run", [("STR_V", .string "v")]⟩] ∧
        linked.graph.resources {} linked.environments =
          [("Run", .object [("Type", .string "Function"), ("Properties", .string "v")])] ∧
        ∃ entity ∈ linked.graph.entities, ∃ definition, entity.definition = some definition ∧
          Record.ofJson definition.toJson = .error (.sectionShape "Properties" .scalar) := by
  have hvalid : flattened.Valid := ⟨by decide, by decide +kernel⟩
  have hread : ∀ entity ∈ flattened.entities, ∀ definition,
      entity.definition = some definition →
        ∃ json record, Record.ofJson json = .ok record ∧ definition = record.toValue := by
    intro entity hentity definition hdefinition
    simp only [flattened, List.mem_cons, List.not_mem_nil, or_false] at hentity
    rcases hentity with rfl | rfl <;> cases hdefinition
    exact ⟨.object [("Type", .string "Function"), ("Properties", .object [("Ref", .string "V")])],
      ⟨_, _, _⟩, rfl, rfl⟩
  have hlinks : (flattened.link {} .permissive).toOption.any (fun linked =>
      decide (linked.environments = [⟨"Run", [("STR_V", .string "v")]⟩] ∧
        linked.graph.resources {} linked.environments =
          [("Run", .object [("Type", .string "Function"), ("Properties", .string "v")])] ∧
        ∃ entity ∈ linked.graph.entities, entity.definition =
          some (.record { typeName := "Function" } (.map []) (.string "v")))) = true := by
    decide +kernel
  obtain ⟨linked, hlinked, hdecided⟩ := (Option.any_eq_true _ _).1 hlinks
  obtain ⟨henvironments, hresources, entity, hentity, hdefinition⟩ := of_decide_eq_true hdecided
  have herror : Record.ofJson (Value.record { typeName := "Function" } (.map [])
      (.string "v")).toJson = .error (.sectionShape "Properties" .scalar) := rfl
  exact ⟨hvalid, hread, linked, Resolver.eq_ok_of_toOption hlinked, henvironments, hresources,
    entity, hentity, _, hdefinition, herror⟩

end LinkedModule

end StackLinker
