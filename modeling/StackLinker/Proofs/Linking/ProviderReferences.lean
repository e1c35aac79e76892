import StackLinker.Linking
import StackLinker.Proofs.Module.Declaration
import StackLinker.Proofs.Resolution.Deferral

/-!
# References to provider entities

The identifier of an entity is computed three times: with the preserve marker for those who refer to
the entity, without it when names are finalized, and for the keys of the template.  This file shows
that the three agree through all stages of a link run.  `knownByIdentifier_of_link` goes from the
document to the template: where a declared value refers to an entity, the linked value refers to its
identifier, and under this identifier the template declares the entity.

Each stage goes through the entities one by one and changes little but their values, which is what
`Entity.Corresponds` says.  The stages are put together in `forall₂_of_link`.
-/

namespace StackLinker

/-- The node that is written for a placeholder. -/
def Placeholder.node : Placeholder → Value
  | ⟨key, none⟩ => .ref key
  | ⟨key, some attr⟩ => .getAtt key attr

theorem Placeholder.isReserved_node (placeholder : Placeholder) :
    placeholder.node.isReserved = true := by
  obtain ⟨key, _ | attr⟩ := placeholder <;> rfl

variable {config : Config} {provider : Entity} {attr : Option String} {node v w : Value}
  {path : Path}

/-! ## Finalization -/

/-- Finalization takes the marker off the name of a resource. -/
theorem Config.bareForm_resource (hmark : config.preserveMarker ≠ "") {form : Form}
    (h : form.placeholder? = some ⟨provider.resourceName config, attr⟩) :
    config.bareForm node form = (Placeholder.mk (provider.logicalId config) attr).node := by
  cases form with
  | reference key =>
      simp only [Form.placeholder?, Option.some.injEq, Placeholder.mk.injEq] at h
      obtain ⟨rfl, rfl⟩ := h
      simp only [bareForm, stripPreserve?_resourceName hmark, Placeholder.node]
  | attributeOf key attr =>
      simp only [Form.placeholder?, Option.some.injEq, Placeholder.mk.injEq] at h
      obtain ⟨rfl, rfl⟩ := h
      simp only [bareForm, stripPreserve?_resourceName hmark, Placeholder.node]
  | substitution => simp [Form.placeholder?] at h

/-- What finalization does with a form. -/
def Config.bareAction (config : Config) : FormAction Unit :=
  fun _ node form _ => (config.bareForm node form, ())

theorem Config.keepsArguments_bareAction (config : Config) : config.bareAction.KeepsArguments := by
  intro path pattern arguments _ hne
  simp only [bareAction, bareForm]
  split
  · exact ⟨pattern, [], by rw [List.append_nil]⟩
  · refine ⟨config.barePattern pattern, [], ?_⟩
    rw [Option.getD_some, Value.sub_eq_template, List.append_nil]
    simp [hne]

theorem Value.turns_of_finalize (hmark : config.preserveMarker ≠ "")
    (h : v.Rewrites config.finalizeRule path () w ()) :
    v.Turns (fun attr x => x.AsksFor ⟨provider.resourceName config, attr⟩)
      (fun attr x => x = (Placeholder.mk (provider.logicalId config) attr).node) w := by
  intro place node attr hstands hnode
  obtain ⟨form, hform, hplaceholder⟩ := hnode
  have hrewrites : v.Rewrites (Rule.ofForms config.bareAction) path () w () := h
  refine standsAt_of_rewrites config.keepsArguments_bareAction ?_ hform
    (Form.placeholder?_eq_some hplaceholder) ?_ hrewrites hstands
  · rintro x rfl
    exact Placeholder.isReserved_node _
  · exact fun _ _ => Config.bareForm_resource hmark hplaceholder

theorem Value.rewrites_of_finalize {root : String} (h : (v.finalize config root).failure = none) :
    v.Rewrites config.finalizeRule [root] () (v.finalize config root).result () := by
  unfold Value.finalize at h
  unfold Rewrites
  rw [← h]
  rfl

namespace Entity

variable {entity done : Entity}

/-- Finalization rewrites the reference and the declaration of an entity. -/
theorem corresponds_of_finalize (h : entity.finalize config = (done, none)) :
    Corresponds (fun v w => v.Rewrites config.finalizeRule [entity.fullName] () w ()) entity
      done := by
  simp only [finalize] at h
  split at h
  · simp at h
  · rename_i hreference hnone
    obtain rfl := congrArg Prod.fst h
    refine ⟨rfl, rfl, rfl, Value.rewrites_of_finalize hreference, ?_⟩
    simp only [hnone]
    exact .none
  · rename_i definition hreference hsome
    simp only [Prod.mk.injEq] at h
    obtain ⟨rfl, hdefinition⟩ := h
    refine ⟨rfl, rfl, rfl, Value.rewrites_of_finalize hreference, ?_⟩
    simp only [hsome]
    exact .some (Value.rewrites_of_finalize hdefinition)

theorem forall₂_of_finalizeAll {entities finalized : List Entity}
    (h : finalizeAll config entities = (finalized, none)) :
    List.Forall₂ (fun entity done => entity.finalize config = (done, none)) entities finalized := by
  induction entities generalizing finalized with
  | nil =>
      obtain rfl : [] = finalized := congrArg Prod.fst h
      exact .nil
  | cons entity rest ih =>
      simp only [finalizeAll] at h
      split at h
      · simp at h
      · rename_i done hdone
        simp only [Prod.mk.injEq] at h
        obtain ⟨rfl, hfailure⟩ := h
        exact .cons hdone (ih (Prod.ext rfl hfailure))

theorem Corresponds.comp {R S T : Value → Value → Prop} {origin between : Entity}
    (hcomp : ∀ {v w x}, R v w → S w x → T v x)
    (first : Corresponds R origin between) (second : Corresponds S between entity) :
    Corresponds T origin entity :=
  ⟨second.fullName.trans first.fullName, second.kind.trans first.kind,
    second.typeName.trans first.typeName, hcomp first.reference second.reference,
    first.definition.comp hcomp second.definition⟩

end Entity

/-! ## Linked modules -/

namespace ModuleGraph

variable {catalog : Catalog} {graph : ModuleGraph} {linked : LinkedModule}

/-- The stages of a link run that succeeds. -/
theorem link_eq_ok (h : graph.link config catalog = .ok linked) :
    ∃ partition resolved stats finalized, graph.partition = .ok partition ∧
      Resolver.resolve config catalog partition = .ok (resolved, stats) ∧
      Entity.finalizeAll config resolved.entities = (finalized, none) ∧
      (∃ functions,
        linked.graph.entities = finalized.map (Entity.expandScope config functions)) ∧
      linked.graph.name = resolved.name ∧
      linked.environments = linked.graph.environments config := by
  simp only [link] at h
  split at h
  · simp at h
  · split at h
    · simp at h
    · rename_i partition hpartition
      split at h
      · simp at h
      · rename_i resolved stats hresolve
        split at h
        · simp at h
        · rename_i finalized hfinalize
          split at h
          · simp at h
          · rename_i propagated environments hpropagate
            obtain rfl := Except.ok.inj h
            simp only [finalize, Prod.mk.injEq] at hfinalize
            obtain ⟨rfl, hfailure⟩ := hfinalize
            refine ⟨partition, resolved, stats, _, hpartition, hresolve, Prod.ext rfl hfailure, ?_⟩
            obtain rfl := congrArg Prod.fst hpropagate
            have henvironments := congrArg Prod.snd hpropagate
            simp only [propagate] at henvironments
            split at henvironments
            · exact ⟨⟨_, rfl⟩, rfl, (Except.ok.inj henvironments).symm⟩
            · simp at henvironments

/-- What resolution and finalization do to the values of a module one after the other, linking
does. -/
theorem corresponds_of_link {R S : Value → Value → Prop}
    (h : graph.link config catalog = .ok linked)
    (hresolved : ∀ {partition resolved stats}, graph.partition = .ok partition →
      Resolver.resolve config catalog partition = .ok (resolved, stats) →
        List.Forall₂ (Entity.Corresponds R) graph.entities resolved.entities)
    (hfinalized : ∀ {v w x path}, R v w → w.Rewrites config.finalizeRule path () x () → S v x) :
    List.Forall₂ (Entity.Corresponds S) graph.entities linked.graph.entities := by
  obtain ⟨partition, resolved, stats, finalized, hpartition, hresolve, hfinalize, ⟨functions,
    hlinked⟩, -⟩ := link_eq_ok h
  rw [hlinked, List.forall₂_map_right_iff]
  refine ((hresolved hpartition hresolve).comp (Entity.forall₂_of_finalizeAll hfinalize)).imp ?_
  rintro origin done ⟨entity, hentity, hdone⟩
  have hfinal : Entity.Corresponds S origin done := by
    refine hentity.comp ?_ (Entity.corresponds_of_finalize hdone)
    exact hfinalized
  -- Expanding its scope changes nothing else of an entity.
  exact ⟨hfinal.fullName, hfinal.kind, hfinal.typeName, hfinal.reference, hfinal.definition⟩

/-- Linking keeps the entities, one by one, and where a reference or a declaration asks for a
provider entity, its identifier stands in the linked module. -/
theorem forall₂_of_link (hmark : config.preserveMarker ≠ "") (hvalid : graph.Valid)
    (hprovider : provider ∈ graph.entities)
    (hown : provider.reference = .ref (provider.resourceName config))
    (hexempt : config.isExempt provider.fullName = false)
    (h : graph.link config catalog = .ok linked) :
    List.Forall₂ (Entity.Corresponds (Value.Turns (provider.IsDeferring config)
      fun attr x => x = (Placeholder.mk (provider.logicalId config) attr).node))
      graph.entities linked.graph.entities :=
  corresponds_of_link h (Resolver.forall₂_of_resolve hmark hvalid hprovider hown hexempt)
    fun first second => first.trans (Value.turns_of_finalize hmark second)

/-- Corresponding entities have the same names and the same identifiers. -/
theorem names_of_forall₂ {R : Value → Value → Prop} {origins entities : List Entity}
    (h : List.Forall₂ (Entity.Corresponds R) origins entities) :
    Entity.names entities = Entity.names origins ∧
      Entity.identifiers config entities = Entity.identifiers config origins := by
  refine ⟨(h.map_eq_map fun hsame => hsame.fullName.symm).symm, ?_⟩
  induction h with
  | nil => rfl
  | cons hfirst _ ih =>
      unfold Entity.identifiers at ih ⊢
      rw [List.filter_cons, List.filter_cons, hfirst.kind]
      split
      · rw [List.map_cons, List.map_cons, ih, Entity.logicalId_congr hfirst.fullName]
      · exact ih

end ModuleGraph

/-- Whether references to a name in the first value are references to an identifier in the second
one, at the same places.  Where an argument map stands, nothing is said. -/
def Value.RefersBy (name identifier : String) (v w : Value) : Prop :=
  ∀ place node, v.at? place = some node → ¬ v.IsArgumentMap place →
    (node = .ref name → w.at? place = some (.ref identifier)) ∧
      ∀ attr, Form.recognize? node = .ok (some (.attributeOf name attr)) →
        w.at? place = some (.getAtt identifier attr)

theorem Value.refersBy_of_turns {identifier : String}
    (h : v.Turns (provider.IsDeferring config)
      (fun attr x => x = (Placeholder.mk identifier attr).node) w) :
    RefersBy provider.fullName identifier v w := by
  intro place node hat hplace
  constructor
  · rintro rfl
    obtain ⟨x, hx, rfl⟩ := h place _ none ⟨hat, hplace⟩
      (Or.inl ⟨_, Form.recognize?_ref _, rfl⟩)
    exact hx.at_eq
  · intro attr hform
    obtain ⟨x, hx, rfl⟩ := h place _ (some attr) ⟨hat, hplace⟩ (Or.inl ⟨_, hform, rfl⟩)
    exact hx.at_eq

namespace LinkedModule

variable {catalog : Catalog} {document : ModuleDocument} {graph : ModuleGraph}
  {linked : LinkedModule} {name : String} {declaration : EntityDeclaration}

/-- The key under which the template of a linked module declares an entity, and nothing else. -/
structure DeclaresUnder (config : Config) (linked : LinkedModule) (entity : Entity)
    (identifier : String) : Prop where
  parameter : entity.kind = .input → ∃ members,
    (linked.template config).member? "Parameters" = some (.object members) ∧
      Fields.find? identifier members = some (entity.parameter config)
  resource : entity.kind.isManaged = true → entity.definition.isSome = true →
    ∃ members written,
      (linked.template config).member? "Resources" = some (.object members) ∧
        entity.resource? config linked.environments = some (identifier, written) ∧
        Fields.find? identifier members = some written
  alone : ∀ other ∈ linked.graph.entities, other.kind.hasIdentifier = true →
    other.logicalId config = identifier → other = entity

theorem declaresUnder_logicalId {entity : Entity}
    (hnodup : (Entity.identifiers config linked.graph.entities).Nodup)
    (hentity : entity ∈ linked.graph.entities) (hkind : entity.kind.hasIdentifier = true) :
    DeclaresUnder config linked entity (entity.logicalId config) := by
  refine ⟨?parameter, ?resource, ?alone⟩
  case parameter =>
    intro hinput
    have hfound := ModuleGraph.find?_parameters hnodup hentity hinput
    refine ⟨_, ModuleGraph.member?_template_parameters ?_ linked.environments, hfound⟩
    intro hnil
    simp [hnil, Fields.find?] at hfound
  case resource =>
    intro hmanaged hsome
    obtain ⟨definition, hdefinition⟩ := Option.isSome_iff_exists.1 hsome
    obtain ⟨written, hwritten⟩ : ∃ written,
        entity.resource? config linked.environments = some (entity.logicalId config, written) := by
      rw [Entity.resource?, if_pos hmanaged, hdefinition]
      exact ⟨_, rfl⟩
    exact ⟨_, written, ModuleGraph.member?_template_resources linked.environments, hwritten,
      ModuleGraph.find?_resources hnodup hentity hwritten⟩
  case alone =>
    intro other hother hotherKind heq
    exact List.inj_on_of_nodup_map hnodup (List.mem_filter.2 ⟨hother, hotherKind⟩)
      (List.mem_filter.2 ⟨hentity, hkind⟩) heq

/-- How a linked module stands for an entity that the provider knows by its identifier. -/
structure KnownByIdentifier (config : Config) (document : ModuleDocument) (linked : LinkedModule)
    (name : String) (declaration : EntityDeclaration) (entity : Entity) : Prop where
  found : linked.graph.get? name = some entity
  kind : entity.kind = declaration.kind
  definition : entity.definition.isSome = declaration.resource.isSome
  template : linked.DeclaresUnder config entity (entity.logicalId config)
  /-- Where a declared value refers to the entity, the linked value refers to the identifier. -/
  references : ∀ other declared, (other, declared) ∈ document.listing config → ∃ origin after,
    declared.toEntity config other = .ok origin ∧ linked.graph.get? other = some after ∧
      Value.RefersBy name (entity.logicalId config) origin.reference after.reference ∧
      Option.Rel (Value.RefersBy name (entity.logicalId config)) origin.definition after.definition

/-- An entity that is declared without a value is known by its identifier in the linked module.
Only inputs, resources and functions can be declared so. -/
theorem knownByIdentifier_of_link (hmark : config.preserveMarker ≠ "")
    (haccepted : ModuleGraph.ofDocument config document = .ok graph)
    (hlink : graph.link config catalog = .ok linked)
    (hdeclared : (name, declaration) ∈ document.listing config)
    (hvalue : declaration.value = none) (hexempt : config.isExempt name = false) :
    ∃ entity, KnownByIdentifier config document linked name declaration entity := by
  have hgraph := ModuleGraph.declared_of_ofDocument haccepted
  obtain ⟨provider, hprovider, hmake⟩ := hgraph.entities.exists_of_mem_left hdeclared
  have hdeclares := EntityDeclaration.declares_of_toEntity hmake
  obtain rfl : provider.fullName = name := hdeclares.fullName
  obtain ⟨hkind, hown⟩ := hdeclares.resource hvalue
  have hlinked := ModuleGraph.forall₂_of_link hmark hgraph.valid hprovider hown hexempt hlink
  obtain ⟨hnames, hidentifiers⟩ := @ModuleGraph.names_of_forall₂ config _ _ _ hlinked
  have hfind : ∀ {other after}, after ∈ linked.graph.entities → after.fullName = other →
      linked.graph.get? other = some after := by
    intro other after hafter hother
    have hnodup : (Entity.names linked.graph.entities).Nodup := hnames ▸ hgraph.valid.nodup
    exact (Entity.find?_eq_some_iff hnodup).2 ⟨hafter, hother⟩
  obtain ⟨entity, hentity, hsame⟩ := hlinked.exists_of_mem_left hprovider
  have hidentifier : entity.logicalId config = provider.logicalId config := by
    rw [Entity.logicalId, Entity.logicalId, hsame.fullName]
  refine ⟨entity, hfind hentity hsame.fullName, hsame.kind.trans hdeclares.kind,
    hsame.definition.isSome_eq.trans hdeclares.definition, ?template, ?references⟩
  case template =>
    exact declaresUnder_logicalId (hidentifiers ▸ hgraph.identifiers) hentity (hsame.kind ▸ hkind)
  case references =>
    intro other declared hother
    obtain ⟨origin, horigin, hmade⟩ := hgraph.entities.exists_of_mem_left hother
    obtain ⟨after, hafter, hturned⟩ := hlinked.exists_of_mem_left horigin
    have horiginName := (EntityDeclaration.declares_of_toEntity hmade).fullName
    rw [hidentifier]
    exact ⟨origin, after, hmade, hfind hafter (hturned.fullName.trans horiginName),
      Value.refersBy_of_turns hturned.reference,
      hturned.definition.imp Value.refersBy_of_turns⟩

/-- The declaration of a resource that refers to itself and to an input. -/
def queue : EntityDeclaration where
  name := "Queue"
  kind := .resource
  resource := some (.object [
    ("Type", .string "Queue"),
    ("Properties", .object [
      ("Self", .object [("Fn::GetAtt", .string "Net::Queue.Arn")]),
      ("Stage", .object [("Ref", .string "Stage")])])])

/-- A document in which a substitution has the resource as an argument. -/
def outpost : ModuleDocument where
  name := "Main"
  entities := [
    { name := "Stage", kind := .input },
    { name := "Net", kind := .value, value := some (.string "net"), children := [queue] },
    { name := "Url"
      kind := .value
      value := some (.object [
        ("Fn::Sub", .array [
          .string "${Net}/${q}", .object [("q", .object [("Ref", .string "Net::Queue")])]])]) }]

/-- What `outpost` declares. -/
def outpostGraph : ModuleGraph where
  name := "Main"
  entities := [
    { fullName := "Stage", kind := .input, reference := .ref "@Stage" },
    .value "Net" (.string "net"),
    { fullName := "Net::Queue"
      kind := .resource
      reference := .ref "@NetQueue"
      definition := some (.record { typeName := "Queue" } (.map []) (.map [
        ("Self", .map [("Fn::GetAtt", .string "Net::Queue.Arn")]), ("Stage", .ref "Stage")]))
      typeName := "Queue" },
    .value "Url" (.sub "${Net}/${q}" [("q", .ref "Net::Queue")])]

theorem knownByIdentifier_of_link_outpost :
    ModuleGraph.ofDocument {} outpost = .ok outpostGraph ∧
      ∃ linked, outpostGraph.link {} .permissive = .ok linked ∧
        ∃ entity, KnownByIdentifier {} outpost linked "Net::Queue" queue entity := by
  have haccepted : ModuleGraph.ofDocument {} outpost = .ok outpostGraph := by
    have hsome : (ModuleGraph.ofDocument {} outpost).toOption = some outpostGraph := by
      decide +kernel
    exact Resolver.eq_ok_of_toOption hsome
  have hlinks : (outpostGraph.link {} .permissive).toOption.isSome = true := by decide +kernel
  obtain ⟨linked, hlinked⟩ := Option.isSome_iff_exists.1 hlinks
  have hlink := Resolver.eq_ok_of_toOption hlinked
  refine ⟨haccepted, linked, hlink, ?_⟩
  exact knownByIdentifier_of_link (by decide) haccepted hlink
    (by simp [ModuleDocument.listing, outpost, EntityDeclaration.listingAll,
      EntityDeclaration.listing, EntityDeclaration.fullName, queue]) rfl (by decide +kernel)

end LinkedModule

end StackLinker
