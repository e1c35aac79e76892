import StackLinker.Proofs.Linking.Injection
import StackLinker.Proofs.Linking.ProviderReferences
import StackLinker.Proofs.Resolution.Correspondence

/-!
# What the template of a linked module holds

The template is written into two mappings, and writing to a key that is present would overwrite what
stands there.  Linking refuses modules in which two identifiers are the same, before anything else
is done.  This file shows that the check is still good for the template at the end: the stages keep
names and kinds (`ModuleGraph.corresponds_of_link`), and an identifier is computed from the name
alone.  So every declaration of the module is in its template, once and in order
(`complete_of_link`).

What an entry holds is stated on what is written.  For an input that is its type, a text for secrets
and where no type is given (`Entity.IsParameter`).  For a resource or function it is the written
form of its linked declaration, with the variables of the function merged into it and nothing else
changed (`FunctionEnvironment.IsInjected`).
-/

namespace StackLinker

variable {config : Config} {catalog : Catalog} {graph : ModuleGraph} {linked : LinkedModule}

/-! ## Declared entities -/

/-- Whether a record stays a record with the same header. -/
def Value.KeepsHeader (v w : Value) : Prop :=
  ∀ header metadata properties, v = .record header metadata properties →
    ∃ metadata properties, w = .record header metadata properties

theorem Value.KeepsHeader.of_rewrites {ν : Type} {action : FormAction ν} {path : Path}
    {v w x : Value} {notes later : ν} (h : v.KeepsHeader w)
    (hrewrites : w.Rewrites (Rule.ofForms action) path notes x later) : v.KeepsHeader x := by
  intro header metadata properties hv
  obtain ⟨before, between, rfl⟩ := h header metadata properties hv
  obtain ⟨x, y, -, hx, -⟩ := rewrites_record_iff.1 hrewrites
  exact ⟨x, y, hx⟩

namespace ModuleGraph

/-- The inputs of a module. -/
def inputs (graph : ModuleGraph) : List Entity :=
  graph.entities.filter fun entity => decide (entity.kind = .input)

/-- The resources and functions of a module that carry a declaration. -/
def declarations (graph : ModuleGraph) : List Entity :=
  graph.entities.filter fun entity =>
    decide ((entity.kind = .resource ∨ entity.kind = .function) ∧ entity.definition ≠ none)

theorem nodup_identifiers_of_link (h : graph.link config catalog = .ok linked) :
    (Entity.identifiers config graph.entities).Nodup := by
  rw [← identifierCollisions_eq_nil_iff]
  by_contra hcollisions
  simp [link, hcollisions] at h

end ModuleGraph

/-- What a template says about an input: the type, which is that of texts for secrets and where no
type is declared, and of secrets that they are not to be shown. -/
inductive Entity.IsParameter (config : Config) (origin : Entity) : Json → Prop
  | secret (h : origin.typeName = config.secretType) :
    IsParameter config origin (.object [("Type", .string "String"), ("NoEcho", .bool true)])
  | untyped (hplain : origin.typeName ≠ config.secretType) (h : origin.typeName = "") :
    IsParameter config origin (.object [("Type", .string "String")])
  | typed (hplain : origin.typeName ≠ config.secretType) (h : origin.typeName ≠ "") :
    IsParameter config origin (.object [("Type", .string origin.typeName)])

theorem Entity.isParameter_parameter {origin entity : Entity}
    (h : entity.typeName = origin.typeName) :
    origin.IsParameter config (entity.parameter config) := by
  rw [parameter, h]
  by_cases hsecret : origin.typeName = config.secretType
  · simpa [hsecret] using IsParameter.secret hsecret
  · by_cases hempty : origin.typeName = ""
    · have hnone : config.secretType ≠ "" := fun heq => hsecret (hempty.trans heq.symm)
      simpa [hempty, hnone] using IsParameter.untyped hsecret hempty
    · simpa [hsecret, hempty] using IsParameter.typed hsecret hempty

namespace LinkedModule

/-- Whether an entry of the parameters says what was declared about an input, under its
identifier. -/
structure IsParameterOf (config : Config) (origin : Entity) (entry : String × Json) : Prop where
  key : entry.1 = origin.logicalId config
  contents : origin.IsParameter config entry.2

/-- Whether an entry of the resources is rendered from the linked entity with a declared name, under
its identifier.  It is the written form of the linked declaration, with the environment of the
entity merged into it if the entity has one. -/
structure IsRenderedFrom (config : Config) (linked : LinkedModule) (origin : Entity)
    (entry : String × Json) : Prop where
  key : entry.1 = origin.logicalId config
  rendered : ∃ entity ∈ linked.graph.entities, ∃ definition given,
    entity.fullName = origin.fullName ∧ entity.kind = origin.kind ∧
    entity.definition = some definition ∧
    Option.Rel Value.KeepsHeader origin.definition entity.definition ∧
    (∀ environment, given = some environment ↔
      environment ∈ linked.environments ∧ environment.function = origin.fullName) ∧
    FunctionEnvironment.IsInjected given definition.toJson entry.2

/-- Whether a template consists of two sections that say everything that a module declares, each
once and in order. -/
structure IsComplete (config : Config) (graph : ModuleGraph) (linked : LinkedModule)
    (parameters resources : Fields Json) : Prop where
  /-- Without inputs there is no section for them. -/
  template : linked.template config = .object (
    [("AWSTemplateFormatVersion", .string "2010-09-09"), ("Description", .string graph.name)] ++
    (if graph.inputs = [] then [] else [("Parameters", .object parameters)]) ++
    [("Resources", .object resources)])
  inputs : List.Forall₂ (IsParameterOf config) graph.inputs parameters
  declarations : List.Forall₂ (linked.IsRenderedFrom config) graph.declarations resources
  keys : (parameters.keys ++ resources.keys).Nodup

/-- The linked entities are the declared ones, one by one. -/
theorem forall₂_declared (hvalid : graph.Valid) (h : graph.link config catalog = .ok linked) :
    List.Forall₂ (Entity.Corresponds Value.KeepsHeader) graph.entities linked.graph.entities := by
  refine ModuleGraph.corresponds_of_link h (Resolver.corresponds_of_resolve hvalid ?refl ?pass)
    Value.KeepsHeader.of_rewrites
  case refl => exact fun v header metadata properties hv => ⟨metadata, properties, hv⟩
  case pass =>
    intro around source v w x outcome hkeeps happly
    exact hkeeps.of_rewrites (Surroundings.apply_eq_ok_iff.1 happly)

theorem name_of_link (h : graph.link config catalog = .ok linked) :
    linked.graph.name = graph.name := by
  obtain ⟨partition, resolved, stats, -, hpartition, hresolve, -, -, hname, -⟩ :=
    ModuleGraph.link_eq_ok h
  exact hname.trans (Resolver.name_of_resolve hpartition hresolve)

/-- Each function has one environment in a linked module, in which each variable is bound once. -/
theorem nodup_environments (hvalid : graph.Valid) (h : graph.link config catalog = .ok linked) :
    (linked.environments.map (·.function)).Nodup ∧
      ∀ environment ∈ linked.environments, environment.bindings.keys.Nodup := by
  obtain ⟨-, -, -, -, -, -, -, -, -, henvironments⟩ := ModuleGraph.link_eq_ok h
  have hnames : linked.graph.names = graph.names :=
    (@ModuleGraph.names_of_forall₂ config _ _ _ (forall₂_declared hvalid h)).1
  rw [henvironments, ModuleGraph.functions_environments]
  refine ⟨?_, linked.graph.nodup_bindings_environments config⟩
  exact (hnames ▸ hvalid.nodup).sublist (List.filter_sublist.map _)

/-- The keys of what declared inputs, resources and functions have in a template are distinct. -/
theorem nodup_keys (hvalid : graph.Valid)
    (hidentifiers : (Entity.identifiers config graph.entities).Nodup) :
    ((graph.inputs ++ graph.declarations).map (Entity.logicalId config)).Nodup := by
  have hnodup : graph.entities.Nodup := hvalid.nodup.of_map
  have hmem : ∀ entity ∈ graph.inputs ++ graph.declarations,
      entity ∈ graph.entities.filter fun entity => entity.kind.hasIdentifier := by
    intro entity hentity
    rcases List.mem_append.1 hentity with hinput | hdeclared
    · obtain ⟨hentity, hkind⟩ := List.mem_filter.1 hinput
      exact List.mem_filter.2 ⟨hentity, by rw [of_decide_eq_true hkind]; rfl⟩
    · obtain ⟨hentity, hdeclared⟩ := List.mem_filter.1 hdeclared
      exact List.mem_filter.2 ⟨hentity,
        EntityKind.hasIdentifier_iff.2 (Or.inr (of_decide_eq_true hdeclared).1)⟩
  refine List.Nodup.map_on (fun a ha b hb heq =>
    List.inj_on_of_nodup_map hidentifiers (hmem a ha) (hmem b hb) heq) ?_
  refine List.nodup_append.2 ⟨hnodup.filter _, hnodup.filter _, fun a ha b hb => ?_⟩
  -- An input is neither a resource nor a function.
  rintro rfl
  have hinput : a.kind = .input := of_decide_eq_true (List.mem_filter.1 ha).2
  have hkind := (of_decide_eq_true (List.mem_filter.1 hb).2).1
  simp [hinput] at hkind

/-- The identifiers that a linked module uses in its template are distinct. -/
theorem nodup_identifiers (hvalid : graph.Valid) (h : graph.link config catalog = .ok linked) :
    (Entity.identifiers config linked.graph.entities).Nodup := by
  rw [(ModuleGraph.names_of_forall₂ (forall₂_declared hvalid h)).2]
  exact ModuleGraph.nodup_identifiers_of_link h

/-- The parameters are those of the declared inputs. -/
theorem parameters_of_link (hvalid : graph.Valid) (h : graph.link config catalog = .ok linked) :
    List.Forall₂ (IsParameterOf config) graph.inputs (linked.graph.parameters config) := by
  rw [ModuleGraph.parameters_eq (nodup_identifiers hvalid h)]
  refine (forall₂_declared hvalid h).filter_filterMap ?selected ?left
  case selected =>
    intro origin entity hsame hinput
    have hkind : entity.kind = .input := hsame.kind.trans (of_decide_eq_true hinput)
    exact ⟨_, if_pos hkind, Entity.logicalId_congr hsame.fullName,
      Entity.isParameter_parameter hsame.typeName⟩
  case left =>
    intro origin entity hsame hinput
    exact if_neg (hsame.kind ▸ of_decide_eq_false hinput)

/-- The resources are rendered from the declared entities. -/
theorem resources_of_link (hvalid : graph.Valid) (h : graph.link config catalog = .ok linked) :
    List.Forall₂ (linked.IsRenderedFrom config) graph.declarations
      (linked.graph.resources config linked.environments) := by
  obtain ⟨hfunctions, hbindings⟩ := nodup_environments hvalid h
  have hall : List.Forall₂ (fun origin entity => entity ∈ linked.graph.entities ∧
      Entity.Corresponds Value.KeepsHeader origin entity)
      graph.entities linked.graph.entities :=
    (forall₂_declared hvalid h).imp_of_mem fun _ hentity hsame => ⟨hentity, hsame⟩
  rw [ModuleGraph.resources_eq (nodup_identifiers hvalid h)]
  refine hall.filter_filterMap ?selected ?left
  case selected =>
    rintro origin entity ⟨hentity, hsame⟩ hdeclared
    obtain ⟨hkind, hdefined⟩ := of_decide_eq_true hdeclared
    have hmanaged : entity.kind.isManaged = true :=
      EntityKind.isManaged_iff.2 (hsame.kind ▸ hkind)
    obtain ⟨definition, hdefinition⟩ : ∃ definition, entity.definition = some definition := by
      rwa [← Option.isSome_iff_exists, hsame.definition.isSome_eq, Option.isSome_iff_ne_none]
    obtain ⟨rendered, hrendered, hinjected⟩ :=
      Entity.exists_resource? config hmanaged hdefinition hbindings
    rw [hsame.fullName] at hinjected
    refine ⟨_, hrendered, Entity.logicalId_congr hsame.fullName, entity, hentity, definition, _,
      hsame.fullName, hsame.kind, hdefinition, hsame.definition, fun environment => ?_, hinjected⟩
    exact FunctionEnvironment.find?_eq_some_iff hfunctions
  case left =>
    rintro origin entity ⟨-, hsame⟩ hdeclared
    rw [← Option.not_isSome_iff_eq_none]
    intro hsome
    obtain ⟨entry, hentry⟩ := Option.isSome_iff_exists.1 hsome
    obtain ⟨hmanaged, hdefined⟩ := Entity.isDeclared_of_resource? hentry
    rw [hsame.definition.isSome_eq, Option.isSome_iff_ne_none] at hdefined
    have hkind := EntityKind.isManaged_iff.1 hmanaged
    rw [hsame.kind] at hkind
    exact of_decide_eq_false hdeclared ⟨hkind, hdefined⟩

/-- The template of a linked module has an entry for each declared input, resource and function,
each under its own identifier and in the order of declaration, and nothing overwrites anything. -/
theorem complete_of_link (hvalid : graph.Valid) (h : graph.link config catalog = .ok linked) :
    ∃ parameters resources, IsComplete config graph linked parameters resources := by
  have hparameters := parameters_of_link hvalid h
  have hresources := resources_of_link hvalid h
  refine ⟨_, _, ?template, hparameters, hresources, ?keys⟩
  case template =>
    have hempty : (linked.graph.parameters config).isEmpty = true ↔ graph.inputs = [] := by
      rw [List.isEmpty_iff, ← List.length_eq_zero_iff, ← List.length_eq_zero_iff,
        hparameters.length_eq]
    rw [template, ModuleGraph.template, name_of_link h]
    simp only [hempty]
    rfl
  case keys =>
    have hnodup := nodup_keys hvalid (ModuleGraph.nodup_identifiers_of_link h)
    rwa [List.map_append, hresources.map_eq_map fun hentry => hentry.key.symm,
      hparameters.map_eq_map fun hentry => hentry.key.symm] at hnodup

/-- A module with two inputs, a function that sees one of them, a declared resource and one that is
declared elsewhere. -/
def service : ModuleGraph where
  name := "Main"
  entities := [
    { fullName := "Run"
      kind := .function
      reference := .ref "@Run"
      definition := some (.record { typeName := "Function" } (.map []) (.map [
        ("Queue", .ref "Net::Queue")]))
      typeName := "Function" },
    { fullName := "Net::Key"
      kind := .input
      reference := .ref "@NetKey"
      scope := ["Run"]
      typeName := "Secret" },
    { fullName := "Net::Queue"
      kind := .resource
      reference := .ref "@NetQueue"
      definition := some (.record { typeName := "Queue" } (.map []) (.map []))
      typeName := "Queue" },
    { fullName := "Bus", kind := .resource, reference := .ref "@Bus" },
    { fullName := "Stage", kind := .input, reference := .ref "@Stage" }]

/-- What its template says about the inputs. -/
def serviceParameters : Fields Json := [
  ("NetKey", .object [("Type", .string "String"), ("NoEcho", .bool true)]),
  ("Stage", .object [("Type", .string "String")])]

/-- What its template says about the function and the declared resource. -/
def serviceResources : Fields Json := [
  ("Run", .object [
    ("Type", .string "Function"),
    ("Properties", .object [
      ("Queue", .object [("Ref", .string "NetQueue")]),
      ("Environment", .object [
        ("Variables", .object [("SEC_NET_KEY", .object [("Ref", .string "NetKey")])])])])]),
  ("NetQueue", .object [("Type", .string "Queue"), ("Properties", .object [])])]

theorem complete_of_link_service :
    service.Valid ∧ ∃ linked, service.link {} .permissive = .ok linked ∧
      IsComplete {} service linked serviceParameters serviceResources := by
  have hvalid : service.Valid := ⟨by decide, by decide +kernel⟩
  have hlinks : (service.link {} .permissive).toOption.map (template {}) = some (.object [
      ("AWSTemplateFormatVersion", .string "2010-09-09"), ("Description", .string "Main"),
      ("Parameters", .object serviceParameters), ("Resources", .object serviceResources)]) := by
    decide +kernel
  obtain ⟨linked, hlinked, htemplate⟩ := Option.map_eq_some_iff.1 hlinks
  have hlink := Resolver.eq_ok_of_toOption hlinked
  obtain ⟨parameters, resources, hcomplete⟩ := complete_of_link hvalid hlink
  have hwritten := hcomplete.template
  rw [htemplate, if_neg (by decide)] at hwritten
  obtain ⟨-, rfl, rfl⟩ : "Main" = service.name ∧ serviceParameters = parameters ∧
      serviceResources = resources := by simpa using hwritten
  exact ⟨hvalid, linked, hlink, hcomplete⟩

end LinkedModule

end StackLinker
