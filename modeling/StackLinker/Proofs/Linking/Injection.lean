import StackLinker.Proofs.Module.Identifiers

/-!
# Environments in declarations

The variables of a function are merged into its written declaration, three levels further down.
Objects that are missing on the way are created, and a tree on the way that is no object bars it.
Either all of the way is there in the end or nothing has changed, so no exit leaves objects behind
that nobody asked for.

* `Json.IsBlocked`: something on the way is no object.
* `Json.MergedAt`: what may differ at the end of the way.  The members that are there stay in front,
  unchanged and in their order, and those with other keys follow; everything else is as it was.

What is rendered for an entity is then decided by these two alone
(`ModuleGraph.rendered_of_last`).  Rendering itself does not look at identifiers: of several
declarations with the same one, the template holds the last (`ModuleGraph.overwrites_resource`).
Modules with such declarations are refused before they are linked.
-/

namespace StackLinker

namespace Fields

variable {α : Type} {key : String} {value : α} {fields additions : Fields α}

/-- Those of some pairs whose keys are not among the fields. -/
def undeclared (fields additions : Fields α) : Fields α :=
  additions.filter fun addition => !fields.contains addition.1

/-- Adding pairs with distinct keys keeps all fields in front; the pairs with other keys follow. -/
theorem foldl_insertNew (h : (keys additions).Nodup) (fields : Fields α) :
    additions.foldl (fun fields addition => fields.insertNew addition.1 addition.2) fields =
      fields ++ fields.undeclared additions := by
  induction additions generalizing fields with
  | nil => simp [undeclared]
  | cons addition rest ih =>
      simp only [keys, List.map_cons, List.nodup_cons] at h
      rw [List.foldl_cons, ih h.2, insertNew]
      cases hdeclared : fields.contains addition.1 with
      | true => simp [undeclared, hdeclared]
      | false =>
          -- No later pair has the key of the one that was added.
          have hsame : undeclared (fields ++ [addition]) rest = undeclared fields rest := by
            refine List.filter_congr fun other hother => ?_
            have hne : addition.1 ≠ other.1 := fun heq => h.1 (heq ▸ List.mem_map_of_mem hother)
            rw [contains, contains, find?_append]
            simp [find?, hne]
          rw [if_neg (by simp), hsame, undeclared, undeclared,
            List.filter_cons_of_pos (by simp [hdeclared]), List.append_assoc]
          rfl

/-- A field that is found stands behind fields with other keys. -/
theorem exists_append_of_find? (h : find? key fields = some value) :
    ∃ before after, fields = before ++ (key, value) :: after ∧ key ∉ keys before := by
  induction fields with
  | nil => simp [find?] at h
  | cons field rest ih =>
      obtain ⟨k, v⟩ := field
      by_cases hk : k = key
      · simp only [find?, hk, if_true, Option.some.injEq] at h
        exact ⟨[], rest, by rw [hk, h, List.nil_append], by simp [keys]⟩
      · simp only [find?, hk, if_false] at h
        obtain ⟨before, after, rfl, hbefore⟩ := ih h
        refine ⟨(k, v) :: before, after, rfl, ?_⟩
        simpa [keys, Ne.symm hk] using hbefore

theorem find?_append_cons {before : Fields α} (h : key ∉ keys before) (value : α)
    (after : Fields α) : find? key (before ++ (key, value) :: after) = some value := by
  rw [find?_append, find?_eq_none_iff.2 h, Option.none_or, find?, if_pos rfl]

theorem insert_append_cons {before : Fields α} (h : key ∉ keys before) (value other : α)
    (after : Fields α) :
    insert key other (before ++ (key, value) :: after) = before ++ (key, other) :: after := by
  induction before with
  | nil => simp [insert]
  | cons field rest ih =>
      simp only [keys, List.map_cons, List.mem_cons, not_or] at h
      rw [List.cons_append, insert, if_neg (Ne.symm h.1), ih h.2, List.cons_append]

/-- What is written last under a key is what stands there in the end. -/
theorem find?_ofPairs_append_cons {after : Fields α} (h : key ∉ keys after) (before : Fields α)
    (value : α) : find? key (ofPairs (before ++ (key, value) :: after)) = some value := by
  suffices hkeep : ∀ fields : Fields α, find? key fields = some value →
      find? key (after.foldl (fun fields pair => fields.insert pair.1 pair.2) fields) =
        some value by
    rw [ofPairs, List.foldl_append, List.foldl_cons]
    exact hkeep _ (by rw [find?_insert, if_pos rfl])
  intro fields hfields
  induction after generalizing fields with
  | nil => exact hfields
  | cons pair rest ih =>
      simp only [keys, List.map_cons, List.mem_cons, not_or] at h
      exact ih h.2 _ (by rw [find?_insert, if_neg h.1, hfields])

end Fields

/-! ## Merging at a place -/

namespace Json

variable {additions : List (String × Json)} {key : String} {path : List String} {json : Json}

/-- What stands at the end of a path of keys. -/
def at? : List String → Json → Option Json
  | [], json => some json
  | key :: path, json => (json.member? key).bind (at? path)

/-- Whether something that is no object stands on a path, its two ends included. -/
def IsBlocked (path : List String) (json : Json) : Prop :=
  ∃ start found, start <+: path ∧ json.at? start = some found ∧ ∀ members, found ≠ .object members

/-- Whether two trees differ only in the object at the end of a path, which gains those of the
additions whose keys it does not have.  Objects on the path that are missing are created. -/
inductive MergedAt (additions : List (String × Json)) : List String → Json → Json → Prop
  /-- The object itself. -/
  | here (members : List (String × Json)) :
    MergedAt additions [] (.object members)
      (.object (members ++ Fields.undeclared members additions))
  /-- A member that is there keeps its place, and no other member changes. -/
  | inside {key : String} {path : List String} {before after : List (String × Json)} {v w : Json}
      (hfirst : key ∉ Fields.keys before) (hmember : MergedAt additions path v w) :
    MergedAt additions (key :: path) (.object (before ++ (key, v) :: after))
      (.object (before ++ (key, w) :: after))
  /-- A member that is missing is created at the end. -/
  | created {key : String} {path : List String} {members : List (String × Json)} {w : Json}
      (hmissing : key ∉ Fields.keys members) (hmember : MergedAt additions path (.object []) w) :
    MergedAt additions (key :: path) (.object members) (.object (members ++ [(key, w)]))

theorem getD_at?_empty (path : List String) :
    ((object []).at? path).getD (.object []) = .object [] := by
  cases path <;> rfl

/-- What stands at the end of the path: what was declared there, and then the other additions. -/
theorem MergedAt.exists_at? {v w : Json} (h : MergedAt additions path v w) :
    ∃ declared, (v.at? path).getD (.object []) = .object declared ∧
      w.at? path = some (.object (declared ++ Fields.undeclared declared additions)) := by
  induction h with
  | here members => exact ⟨members, rfl, rfl⟩
  | inside hfirst _ ih =>
      simp only [at?, member?, Fields.find?_append_cons hfirst, Option.bind_some]
      exact ih
  | created hmissing _ ih =>
      obtain ⟨declared, hdeclared, hmerged⟩ := ih
      refine ⟨declared, ?_, ?_⟩
      · rw [at?, member?, Fields.find?_eq_none_iff.2 hmissing]
        exact (getD_at?_empty _).symm.trans hdeclared
      · rw [at?, member?, Fields.find?_append_cons hmissing]
        exact hmerged

theorem isBlocked_nil : IsBlocked [] json ↔ ∀ members, json ≠ .object members := by
  simp [IsBlocked, at?]

theorem isBlocked_cons : IsBlocked (key :: path) json ↔
    (∀ members, json ≠ .object members) ∨ ∃ found, json.member? key = some found ∧
      found.IsBlocked path := by
  simp only [IsBlocked, List.prefix_cons_iff]
  constructor
  · rintro ⟨start, found, rfl | ⟨start, rfl, hstart⟩, hfound, hother⟩
    · exact Or.inl (Option.some.inj hfound ▸ hother)
    · obtain ⟨next, hnext, hfound⟩ := Option.bind_eq_some_iff.1 hfound
      exact Or.inr ⟨next, hnext, start, found, hstart, hfound, hother⟩
  · rintro (hother | ⟨next, hnext, start, found, hstart, hfound, hother⟩)
    · exact ⟨[], json, Or.inl rfl, rfl, hother⟩
    · exact ⟨key :: start, found, Or.inr ⟨start, rfl, hstart⟩, by rw [at?, hnext]; exact hfound,
        hother⟩

theorem not_isBlocked_empty (path : List String) : ¬(object []).IsBlocked path := by
  cases path with
  | nil => simp [isBlocked_nil]
  | cons key path => simp [isBlocked_cons, member?, Fields.find?]

/-- Adds members to the object at the end of a path, and creates what is missing on it. -/
def mergeAt (additions : List (String × Json)) : List String → Json → Json
  | [] => addMembers additions
  | key :: path => updateMember key (mergeAt additions path)

theorem updateMember_append_cons {before : List (String × Json)} (h : key ∉ Fields.keys before)
    (update : Json → Json) (v : Json) (after : List (String × Json)) :
    updateMember key update (.object (before ++ (key, v) :: after)) =
      .object (before ++ (key, update v) :: after) := by
  rw [updateMember, Fields.find?_append_cons h, Option.getD_some, Fields.insert_append_cons h]

theorem updateMember_of_notMem {members : List (String × Json)} (h : key ∉ Fields.keys members)
    (update : Json → Json) :
    updateMember key update (.object members) =
      .object (members ++ [(key, update (.object []))]) := by
  rw [updateMember, Fields.find?_eq_none_iff.2 h, Option.getD_none, Fields.insert_of_notMem _ h]

/-- On a barred way nothing happens at all. -/
theorem mergeAt_of_isBlocked (h : json.IsBlocked path) : json.mergeAt additions path = json := by
  induction path generalizing json with
  | nil =>
      rw [isBlocked_nil] at h
      cases json with
      | object members => exact absurd rfl (h members)
      | _ => rfl
  | cons key path ih =>
      cases json with
      | object members =>
          obtain ⟨found, hfound, hblocked⟩ := (isBlocked_cons.1 h).resolve_left (by simp)
          obtain ⟨before, after, rfl, hfirst⟩ := Fields.exists_append_of_find? hfound
          rw [mergeAt, updateMember_append_cons hfirst, ih hblocked]
      | _ => rfl

/-- On a way that is open the additions arrive, and nothing else changes. -/
theorem mergedAt_mergeAt (hadditions : (Fields.keys additions).Nodup) (h : ¬json.IsBlocked path) :
    MergedAt additions path json (json.mergeAt additions path) := by
  induction path generalizing json with
  | nil =>
      obtain ⟨members, rfl⟩ : ∃ members, json = .object members := by simpa [isBlocked_nil] using h
      rw [mergeAt, addMembers, Fields.foldl_insertNew hadditions]
      exact .here members
  | cons key path ih =>
      rw [isBlocked_cons, not_or] at h
      obtain ⟨members, rfl⟩ : ∃ members, json = .object members := by simpa using h.1
      cases hfound : Fields.find? key members with
      | some found =>
          have hopen : ¬found.IsBlocked path := fun hblocked => h.2 ⟨found, hfound, hblocked⟩
          obtain ⟨before, after, rfl, hfirst⟩ := Fields.exists_append_of_find? hfound
          rw [mergeAt, updateMember_append_cons hfirst]
          exact .inside hfirst (ih hopen)
      | none =>
          have hmissing := Fields.find?_eq_none_iff.1 hfound
          rw [mergeAt, updateMember_of_notMem hmissing]
          exact .created hmissing (ih (not_isBlocked_empty path))

end Json

/-! ## Merging an environment -/

namespace FunctionEnvironment

variable {environment : FunctionEnvironment} {declared : Json}

/-- Where a declaration has its variables. -/
def variablesPath : List String := ["Properties", "Environment", "Variables"]

/-- The variables as they are written. -/
def additions (environment : FunctionEnvironment) : List (String × Json) :=
  environment.bindings.map fun (name, value) => (name, value.toJson)

@[simp] theorem keys_additions (environment : FunctionEnvironment) :
    Fields.keys environment.additions = environment.bindings.keys := by
  simp [additions, Fields.keys]

theorem inject_eq (environment : FunctionEnvironment) (declared : Json) :
    environment.inject declared = if environment.bindings.isEmpty then declared
      else declared.mergeAt environment.additions variablesPath := rfl

/-- What a written declaration becomes in the template, given the environment of its entity if
there is one. -/
structure IsInjected (environment : Option FunctionEnvironment) (declared rendered : Json) :
    Prop where
  /-- Without variables, or if something on the way to them is no object, nothing changes. -/
  unchanged : (∀ given ∈ environment, given.bindings = []) ∨ declared.IsBlocked variablesPath →
    rendered = declared
  /-- Otherwise nothing changes except for the variables. -/
  merged : ∀ given ∈ environment, given.bindings ≠ [] → ¬declared.IsBlocked variablesPath →
    Json.MergedAt given.additions variablesPath declared rendered
  /-- The variables are then the declared ones, followed by the others of the environment. -/
  contents : ∀ given ∈ environment, given.bindings ≠ [] → ¬declared.IsBlocked variablesPath →
    ∃ members, (declared.at? variablesPath).getD (.object []) = .object members ∧
      rendered.at? variablesPath =
        some (.object (members ++ Fields.undeclared members given.additions))

theorem isInjected_inject (h : environment.bindings.keys.Nodup) (declared : Json) :
    IsInjected (some environment) declared (environment.inject declared) := by
  have hmerged : environment.bindings ≠ [] → ¬declared.IsBlocked variablesPath →
      Json.MergedAt environment.additions variablesPath declared (environment.inject declared) := by
    intro hbindings hopen
    rw [inject_eq, if_neg (by simpa using hbindings)]
    exact Json.mergedAt_mergeAt (by simpa using h) hopen
  refine ⟨?_, ?_, ?_⟩
  · rintro (hempty | hblocked)
    · rw [inject_eq, hempty environment rfl]
      rfl
    · rw [inject_eq, Json.mergeAt_of_isBlocked hblocked, ite_self]
  · rintro _ ⟨⟩
    exact hmerged
  · rintro _ ⟨⟩ hbindings hopen
    exact (hmerged hbindings hopen).exists_at?

theorem isInjected_none (declared : Json) : IsInjected none declared declared :=
  ⟨fun _ => rfl, by simp, by simp⟩

theorem mem_of_find? {function : String} {environments : List FunctionEnvironment}
    (h : find? function environments = some environment) :
    environment ∈ environments ∧ environment.function = function := by
  induction environments with
  | nil => simp [find?] at h
  | cons first rest ih =>
      rw [find?] at h
      split at h
      · rename_i hfirst
        obtain rfl := Option.some.inj h
        exact ⟨List.mem_cons_self, hfirst⟩
      · exact ⟨List.mem_cons_of_mem _ (ih h).1, (ih h).2⟩

/-- Where no function has two environments, an environment is found if it is there. -/
theorem find?_eq_some_iff {function : String} {environments : List FunctionEnvironment}
    (hnodup : (environments.map (·.function)).Nodup) :
    find? function environments = some environment ↔
      environment ∈ environments ∧ environment.function = function := by
  refine ⟨mem_of_find?, ?_⟩
  rintro ⟨hmem, hfunction⟩
  induction environments with
  | nil => simp at hmem
  | cons first rest ih =>
      simp only [List.map_cons, List.nodup_cons] at hnodup
      rw [find?]
      rcases List.mem_cons.1 hmem with rfl | hmem
      · rw [if_pos hfunction]
      · rw [if_neg fun hfirst => hnodup.1 ?_, ih hnodup.2 hmem]
        exact hfirst.trans hfunction.symm ▸ List.mem_map_of_mem hmem

end FunctionEnvironment

/-! ## Rendering -/

namespace Entity

variable {config : Config} {environments : List FunctionEnvironment} {entity : Entity}
  {definition : Value}

/-- An entity whose declaration is rendered as a resource. -/
def IsDeclared (entity : Entity) : Prop :=
  entity.kind.isManaged = true ∧ entity.definition.isSome = true

instance (entity : Entity) : Decidable entity.IsDeclared :=
  inferInstanceAs (Decidable (_ ∧ _))

theorem exists_resource? (config : Config) (hmanaged : entity.kind.isManaged = true)
    (hdefinition : entity.definition = some definition)
    (hdistinct : ∀ environment ∈ environments, environment.bindings.keys.Nodup) :
    ∃ rendered, entity.resource? config environments = some (entity.logicalId config, rendered) ∧
      FunctionEnvironment.IsInjected (FunctionEnvironment.find? entity.fullName environments)
        definition.toJson rendered := by
  rw [resource?, if_pos hmanaged, hdefinition]
  cases hfind : FunctionEnvironment.find? entity.fullName environments with
  | none => exact ⟨_, rfl, FunctionEnvironment.isInjected_none _⟩
  | some environment =>
      have hnodup := hdistinct environment (FunctionEnvironment.mem_of_find? hfind).1
      exact ⟨_, rfl, FunctionEnvironment.isInjected_inject hnodup _⟩

theorem isDeclared_of_resource? {entry : String × Json}
    (h : entity.resource? config environments = some entry) : entity.IsDeclared := by
  unfold resource? at h
  split at h
  · rename_i hmanaged
    obtain ⟨definition, hdefinition, -⟩ := Option.map_eq_some_iff.1 h
    exact ⟨hmanaged, by rw [hdefinition]; rfl⟩
  · simp at h

end Entity

namespace ModuleGraph

variable {config : Config} {environments : List FunctionEnvironment} {graph : ModuleGraph}

/-- The template holds the declaration of an entity under its identifier, unless a later declared
entity has the same one.  It is the written declaration, with the environment merged into it. -/
theorem rendered_of_last {before after : List Entity} {entity : Entity} {definition : Value}
    (hgraph : graph.entities = before ++ entity :: after)
    (hmanaged : entity.kind.isManaged = true)
    (hdefinition : entity.definition = some definition)
    (hlast : ∀ later ∈ after, later.IsDeclared → later.logicalId config ≠ entity.logicalId config)
    (hdistinct : ∀ environment ∈ environments, environment.bindings.keys.Nodup) :
    ∃ resources rendered,
      (graph.template config environments).member? "Resources" = some (.object resources) ∧
      Fields.find? (entity.logicalId config) resources = some rendered ∧
      FunctionEnvironment.IsInjected (FunctionEnvironment.find? entity.fullName environments)
        definition.toJson rendered := by
  obtain ⟨rendered, hrendered, hinjected⟩ :=
    Entity.exists_resource? config hmanaged hdefinition hdistinct
  refine ⟨_, rendered, member?_template_resources environments, ?_, hinjected⟩
  rw [resources, hgraph, List.filterMap_append, List.filterMap_cons_some hrendered]
  refine Fields.find?_ofPairs_append_cons (fun hmem => ?_) _ _
  obtain ⟨entry, hentry, hkey⟩ := List.mem_map.1 hmem
  obtain ⟨later, hlater, hresource⟩ := List.mem_filterMap.1 hentry
  refine hlast later hlater (Entity.isDeclared_of_resource? hresource) ?_
  rw [← (Entity.declares_resource? hresource).2, hkey]

/-- Three functions, of which the first two have the same identifier.  The environment of the second
one meets variables that are declared, that of the third one a text. -/
def crowded : ModuleGraph where
  name := "Main"
  entities := [
    { fullName := "Run::All"
      kind := .function
      reference := .ref "@RunAll"
      definition := some (.record { typeName := "Function" } (.map []) (.map [])) },
    { fullName := "Run::A::ll"
      kind := .function
      reference := .ref "@RunAll"
      definition := some (.record { typeName := "Function" } (.map []) (.map [
        ("Environment", .map [("Variables", .map [("MODE", .string "x")]), ("Role", .null)]),
        ("Memory", .string "256")])) },
    { fullName := "Stop"
      kind := .function
      reference := .ref "@Stop"
      definition := some (.record { typeName := "Function" } (.map []) (.map [
        ("Environment", .string "none")])) }]

/-- The environments of its functions. -/
def crowdedEnvironments : List FunctionEnvironment := [
  ⟨"Run::A::ll", [("KEY", .ref "Key"), ("MODE", .string "y")]⟩,
  ⟨"Stop", [("KEY", .ref "Key")]⟩]

theorem rendered_of_last_crowded :
    ∃ first second third definition, crowded.entities = [first] ++ second :: [third] ∧
      second.kind.isManaged = true ∧ second.definition = some definition ∧
      (∀ later ∈ [third], later.IsDeclared → later.logicalId {} ≠ second.logicalId {}) ∧
      (∀ environment ∈ crowdedEnvironments, environment.bindings.keys.Nodup) ∧
      ∃ resources rendered,
        (crowded.template {} crowdedEnvironments).member? "Resources" = some (.object resources) ∧
        Fields.find? (second.logicalId {}) resources = some rendered ∧
        FunctionEnvironment.IsInjected
          (FunctionEnvironment.find? second.fullName crowdedEnvironments)
          definition.toJson rendered := by
  have hgraph : crowded.entities =
      [crowded.entities[0]] ++ crowded.entities[1] :: [crowded.entities[2]] := rfl
  have hlast : ∀ later ∈ [crowded.entities[2]], later.IsDeclared →
      later.logicalId {} ≠ crowded.entities[1].logicalId {} := by decide +kernel
  have hdistinct : ∀ environment ∈ crowdedEnvironments, environment.bindings.keys.Nodup := by
    decide
  exact ⟨_, _, _, _, hgraph, rfl, rfl, hlast, hdistinct,
    rendered_of_last hgraph rfl rfl hlast hdistinct⟩

/-- Two resources with the same identifier, declared with different types. -/
def overlapping : ModuleGraph where
  name := "Main"
  entities := [
    { fullName := "A::BC"
      kind := .resource
      reference := .ref "@ABC"
      definition := some (.record { typeName := "Queue" } (.map []) (.map []))
      typeName := "Queue" },
    { fullName := "AB::C"
      kind := .resource
      reference := .ref "@ABC"
      definition := some (.record { typeName := "Topic" } (.map []) (.map []))
      typeName := "Topic" }]

/-- Although no environment is given, the declaration of the first resource is nowhere in the
template: the second one stands under its identifier. -/
theorem overwrites_resource : overlapping.Valid ∧
    ∃ entity ∈ overlapping.entities, entity.kind = .resource ∧
      ∃ definition, entity.definition = some definition ∧
        (overlapping.template {} []).member? "Resources" =
          some (.object (overlapping.resources {} [])) ∧
        Fields.find? (entity.logicalId {}) (overlapping.resources {} []) ≠ some definition.toJson ∧
        ∀ resource ∈ overlapping.resources {} [], resource.2 ≠ definition.toJson := by
  have hvalid : overlapping.Valid := ⟨by decide, by decide +kernel⟩
  have hresources : overlapping.resources {} [] =
      [("ABC", .object [("Type", .string "Topic"), ("Properties", .object [])])] := by
    decide +kernel
  have hidentifier : overlapping.entities[0].logicalId {} = "ABC" := by decide +kernel
  refine ⟨hvalid, overlapping.entities[0], List.mem_cons_self, rfl, _, rfl,
    member?_template_resources [], ?_, ?_⟩
  · rw [hresources, hidentifier]
    decide
  · rw [hresources]
    decide

/-- The environments that are built for a module have distinct variables. -/
theorem nodup_bindings_environments (config : Config) (graph : ModuleGraph) :
    ∀ environment ∈ graph.environments config, environment.bindings.keys.Nodup := by
  suffices hfold : ∀ (entities : List Entity) (environments : List FunctionEnvironment),
      (∀ environment ∈ environments, environment.bindings.keys.Nodup) →
      ∀ environment ∈ entities.foldl (Entity.bindInto config) environments,
        environment.bindings.keys.Nodup by
    refine hfold _ _ fun environment henvironment => ?_
    obtain ⟨function, -, rfl⟩ := List.mem_map.1 henvironment
    exact List.nodup_nil
  intro entities
  induction entities with
  | nil => exact fun _ hnodup => hnodup
  | cons entity rest ih =>
      refine fun environments hnodup => ih _ fun bound hbound => ?_
      obtain ⟨environment, henvironment, rfl⟩ := List.mem_map.1 hbound
      split
      · exact Fields.nodup_keys_insert (hnodup environment henvironment)
      · exact hnodup environment henvironment

/-- Each function has one environment, in the order of the functions. -/
theorem functions_environments (config : Config) (graph : ModuleGraph) :
    (graph.environments config).map (·.function) = graph.functionNames := by
  suffices hfold : ∀ (entities : List Entity) (environments : List FunctionEnvironment),
      (entities.foldl (Entity.bindInto config) environments).map (·.function) =
        environments.map (·.function) by
    rw [environments, hfold, List.map_map]
    exact List.map_id _
  intro entities
  induction entities with
  | nil => exact fun _ => rfl
  | cons entity rest ih =>
      intro environments
      rw [List.foldl_cons, ih, Entity.bindInto, List.map_map]
      refine List.map_congr_left fun environment _ => ?_
      rw [Function.comp_apply]
      split <;> rfl

end ModuleGraph

end StackLinker
