import StackLinker.Environment
import StackLinker.Proofs.Resolution.Settled
import StackLinker.Proofs.Value.Mapping

/-!
# What a function sees

An entity names the functions that see it, and a function sees it as a variable.  The environment of
a function is what remains after writing the variables of all visible entities, in the order of
their declaration (`find?_environments`).  Nothing keeps two of them from having the same variable:
names are brought into upper case and everything but letters and digits becomes a low line.  Then
the last one wins, and the others are lost without notice (`loses_binding`).

So a variable is bound to the value of its entity as long as no other visible entity claims it for
another value (`bound_of_propagate`).
-/

namespace StackLinker

namespace Entity

variable {config : Config} {functions : List String} {function : String} {entity : Entity}

/-- The variable for an entity with its value. -/
def binding (config : Config) (entity : Entity) : String × Value :=
  (entity.envName config, envValue config entity.reference)

@[simp] theorem binding_expandScope (config : Config) (functions : List String) (entity : Entity) :
    (entity.expandScope config functions).binding config = entity.binding config := rfl

/-- Whether a function sees an entity. -/
def isVisible (config : Config) (functions : List String) (function : String) (entity : Entity) :
    Bool :=
  (entity.expandScope config functions).scope.contains function

/-- A function sees the entities whose scope lists it or has the wildcard. -/
theorem isVisible_iff (hfunction : function ∈ functions) :
    entity.isVisible config functions function = true ↔
      config.wildcardScope ∈ entity.scope ∨ function ∈ entity.scope := by
  have hentry : ∀ entry, function ∈ scopeEntry config functions entry ↔
      entry = config.wildcardScope ∨ entry = function := by
    intro entry
    unfold scopeEntry
    by_cases hwildcard : entry = config.wildcardScope
    · simp [hwildcard, hfunction]
    · by_cases hentry : entry ∈ functions
      · simp [hwildcard, hentry, eq_comm]
      · have hne : entry ≠ function := fun heq => hentry (heq ▸ hfunction)
        simp [hwildcard, hentry, hne]
  simp only [isVisible, expandScope, List.contains_iff_mem, List.mem_eraseDups, List.mem_flatMap,
    hentry]
  constructor
  · rintro ⟨entry, hmem, rfl | rfl⟩
    · exact Or.inl hmem
    · exact Or.inr hmem
  · rintro (hmem | hmem)
    · exact ⟨_, hmem, Or.inl rfl⟩
    · exact ⟨_, hmem, Or.inr rfl⟩

end Entity

namespace FunctionEnvironment

variable {config : Config} {function : String}

/-- What is done to each environment is done to the one that is found. -/
theorem find?_map {f : FunctionEnvironment → FunctionEnvironment}
    (hf : ∀ environment, (f environment).function = environment.function)
    (environments : List FunctionEnvironment) :
    find? function (environments.map f) = (find? function environments).map f := by
  induction environments with
  | nil => rfl
  | cons first rest ih =>
      simp only [List.map_cons, find?, hf, ih]
      split <;> rfl

theorem find?_of_mem {functions : List String} (h : function ∈ functions) :
    find? function (functions.map fun name => { function := name }) =
      some { function := function } := by
  induction functions with
  | nil => simp at h
  | cons first rest ih =>
      by_cases hfirst : first = function
      · simp [find?, hfirst]
      · simp only [List.map_cons, find?, hfirst, if_false]
        exact ih ((List.mem_cons.1 h).resolve_left (Ne.symm hfirst))

/-- The environment with the variable for an entity, if its function is in the entity's scope. -/
def bind (config : Config) (environment : FunctionEnvironment) (entity : Entity) :
    FunctionEnvironment :=
  if entity.scope.contains environment.function then
    { environment with
      bindings := environment.bindings.insert (entity.binding config).1 (entity.binding config).2 }
  else environment

@[simp] theorem function_bind (environment : FunctionEnvironment) (entity : Entity) :
    (environment.bind config entity).function = environment.function := by
  unfold bind
  split <;> rfl

theorem find?_foldl_bindInto (entities : List Entity) (environments : List FunctionEnvironment) :
    find? function (entities.foldl (Entity.bindInto config) environments) =
      (find? function environments).map fun environment =>
        entities.foldl (bind config) environment := by
  induction entities generalizing environments with
  | nil => simp
  | cons entity rest ih =>
      have hbind : find? function (Entity.bindInto config environments entity) =
          (find? function environments).map (·.bind config entity) :=
        find?_map (fun environment => function_bind environment entity) environments
      rw [List.foldl_cons, ih, hbind, Option.map_map]
      rfl

/-- Entities are bound one after the other, as far as the function is in their scopes. -/
theorem foldl_bind (entities : List Entity) (bindings : Fields Value) :
    entities.foldl (bind config) ⟨function, bindings⟩ =
      ⟨function, ((entities.filter fun entity => entity.scope.contains function).map
        (Entity.binding config)).foldl (fun fields pair => fields.insert pair.1 pair.2)
          bindings⟩ := by
  induction entities generalizing bindings with
  | nil => rfl
  | cons entity rest ih =>
      cases h : entity.scope.contains function <;>
        simp only [List.foldl_cons, List.filter_cons, List.map_cons, bind, h, ih, if_true,
          Bool.false_eq_true, if_false]

end FunctionEnvironment

namespace ModuleGraph

variable {config : Config} {graph : ModuleGraph} {function : String}
  {environments : List FunctionEnvironment}

/-- The entities that a function sees. -/
def visible (config : Config) (graph : ModuleGraph) (function : String) : List Entity :=
  graph.entities.filter (Entity.isVisible config graph.functionNames function)

@[simp] theorem functionNames_expandScopes (config : Config) (graph : ModuleGraph) :
    (graph.expandScopes config).1.functionNames = graph.functionNames := by
  simp only [functionNames, functions, expandScopes, List.filter_map, List.map_map]
  rfl

/-- The environment of a function is what remains after writing the variables of the visible
entities one after the other. -/
theorem find?_environments (config : Config) (hfunction : function ∈ graph.functionNames) :
    FunctionEnvironment.find? function ((graph.expandScopes config).1.environments config) =
      some ⟨function, Fields.ofPairs
        ((graph.visible config function).map (Entity.binding config))⟩ := by
  have hpairs : ((graph.expandScopes config).1.entities.filter fun entity =>
      entity.scope.contains function).map (Entity.binding config) =
      (graph.visible config function).map (Entity.binding config) := by
    simp only [expandScopes, List.filter_map, List.map_map]
    rfl
  unfold environments
  rw [functionNames_expandScopes, FunctionEnvironment.find?_foldl_bindInto,
    FunctionEnvironment.find?_of_mem hfunction, Option.map_some, FunctionEnvironment.foldl_bind,
    hpairs]
  rfl

/-- The environment of a function binds the variable of every entity that the function sees to the
value of that entity, unless another visible entity claims the variable for another value, and it
binds nothing else. -/
theorem bound_of_propagate (h : (graph.propagate config).2 = .ok environments)
    (hfunction : function ∈ graph.functionNames) :
    ∃ environment, FunctionEnvironment.find? function environments = some environment ∧
      (∀ entity ∈ graph.visible config function,
        (∀ other ∈ graph.visible config function, other.envName config = entity.envName config →
          Entity.envValue config other.reference = Entity.envValue config entity.reference) →
        environment.bindings.find? (entity.envName config) =
          some (Entity.envValue config entity.reference)) ∧
      ∀ name ∈ environment.bindings.keys,
        ∃ entity ∈ graph.visible config function, entity.envName config = name := by
  obtain rfl : (graph.expandScopes config).1.environments config = environments := by
    simp only [propagate] at h
    split at h
    · exact Except.ok.inj h
    · simp at h
  refine ⟨_, find?_environments config hfunction, ?bound, ?nothing⟩
  case bound =>
    intro entity hentity hunique
    refine Fields.find?_ofPairs (List.mem_map_of_mem hentity) fun value hvalue => ?_
    obtain ⟨other, hother, heq⟩ := List.mem_map.1 hvalue
    obtain ⟨hname, rfl⟩ := Prod.mk.inj heq
    exact hunique other hother hname
  case nothing =>
    intro name hname
    obtain ⟨pair, hpair, rfl⟩ := List.mem_map.1 (Fields.mem_keys_ofPairs.1 hname)
    obtain ⟨entity, hentity, rfl⟩ := List.mem_map.1 hpair
    exact ⟨entity, hentity, rfl⟩

/-- Two functions, a secret that both of them see, and a text of nearly the same name. -/
def tenants : ModuleGraph where
  name := "Main"
  entities := [
    { fullName := "Run", kind := .function, reference := .ref "Run" },
    { fullName := "Net::Key"
      kind := .input
      reference := .ref "NetKey"
      scope := ["all"]
      typeName := "Secret" },
    { fullName := "Net_Key"
      kind := .value
      reference := .list [.string "a", .string "b"]
      scope := ["Run", "all"] },
    { fullName := "Stop", kind := .function, reference := .ref "Stop", scope := ["Run"] }]

/-- What the functions of `tenants` see. -/
def tenantEnvironments : List FunctionEnvironment := [
  ⟨"Run", [("SEC_NET_KEY", .ref "NetKey"),
    ("STR_NET_KEY", .joinItems "," (.list [.string "a", .string "b"])), ("STR_STOP", .ref "Stop")]⟩,
  ⟨"Stop", [("SEC_NET_KEY", .ref "NetKey"),
    ("STR_NET_KEY", .joinItems "," (.list [.string "a", .string "b"]))]⟩]

theorem bound_of_propagate_tenants :
    (tenants.propagate {}).2 = .ok tenantEnvironments ∧ "Run" ∈ tenants.functionNames ∧
      ∃ environment, FunctionEnvironment.find? "Run" tenantEnvironments = some environment ∧
        (∀ entity ∈ tenants.visible {} "Run",
          (∀ other ∈ tenants.visible {} "Run", other.envName {} = entity.envName {} →
            Entity.envValue {} other.reference = Entity.envValue {} entity.reference) →
          environment.bindings.find? (entity.envName {}) =
            some (Entity.envValue {} entity.reference)) ∧
        ∀ name ∈ environment.bindings.keys,
          ∃ entity ∈ tenants.visible {} "Run", entity.envName {} = name := by
  have hsome : (tenants.propagate {}).2.toOption = some tenantEnvironments := by decide +kernel
  have hpropagate := Resolver.eq_ok_of_toOption hsome
  have hfunction : "Run" ∈ tenants.functionNames := by decide
  exact ⟨hpropagate, hfunction, bound_of_propagate hpropagate hfunction⟩

/-- A function that sees two texts whose names differ in their separators only. -/
def clashing : ModuleGraph where
  name := "Main"
  entities := [
    { fullName := "Run", kind := .function, reference := .ref "Run" },
    { fullName := "Net::Key", kind := .value, reference := .string "first", scope := ["Run"] },
    { fullName := "Net_Key", kind := .value, reference := .string "second", scope := ["Run"] }]

/-- The variable of the first text holds the second one. -/
theorem loses_binding :
    clashing.Valid ∧
      (clashing.propagate {}).2 = .ok [⟨"Run", [("STR_NET_KEY", .string "second")]⟩] ∧
      ∃ lost ∈ clashing.visible {} "Run", lost.fullName = "Net::Key" ∧
        lost.envName {} = "STR_NET_KEY" ∧
        Entity.envValue {} lost.reference = .string "first" := by
  have hsome : (clashing.propagate {}).2.toOption =
      some [⟨"Run", [("STR_NET_KEY", .string "second")]⟩] := by decide +kernel
  have hlost : ∃ lost ∈ clashing.visible {} "Run", lost.fullName = "Net::Key" ∧
      lost.envName {} = "STR_NET_KEY" ∧
      Entity.envValue {} lost.reference = .string "first" := by decide +kernel
  exact ⟨⟨by decide, by decide +kernel⟩, Resolver.eq_ok_of_toOption hsome, hlost⟩

end ModuleGraph

end StackLinker
