import StackLinker.Diagnostic
import StackLinker.Entity

/-!
# Module graphs

The entities of a module in the order of their declaration.  `ModuleGraph.add` keeps full names
distinct, non-empty and free of dots, since a dot in a placeholder starts an attribute; the
statements at the end say that every graph it builds satisfies `ModuleGraph.Valid`.
-/

namespace StackLinker

namespace Entity

/-- The entity with a full name. -/
def find? (name : String) : List Entity → Option Entity
  | [] => none
  | entity :: rest => if entity.fullName = name then some entity else find? name rest

theorem fullName_of_find? {name : String} {entities : List Entity} {entity : Entity}
    (h : find? name entities = some entity) : entity.fullName = name := by
  induction entities with
  | nil => simp [find?] at h
  | cons e rest ih =>
    by_cases he : e.fullName = name
    · simp only [find?, he, if_true, Option.some.injEq] at h
      exact h ▸ he
    · simp only [find?, he, if_false] at h
      exact ih h

theorem find?_isSome_iff {name : String} {entities : List Entity} :
    (find? name entities).isSome = true ↔ name ∈ entities.map (·.fullName) := by
  induction entities with
  | nil => simp [find?]
  | cons e rest ih =>
    by_cases he : e.fullName = name
    · simp [find?, he]
    · simp only [find?, he, if_false, List.map_cons, List.mem_cons, ih]
      exact ⟨Or.inr, fun h => h.resolve_left (Ne.symm he)⟩

end Entity

/-- The entities of a module in the order of their declaration. -/
structure ModuleGraph where
  name : String
  entities : List Entity := []
deriving DecidableEq, Repr, Inhabited

namespace ModuleGraph

/-- The full names in order. -/
def names (graph : ModuleGraph) : List String :=
  graph.entities.map (·.fullName)

/-- The entity with a full name. -/
def get? (graph : ModuleGraph) (name : String) : Option Entity :=
  Entity.find? name graph.entities

/-- The functions of a module. -/
def functions (graph : ModuleGraph) : List Entity :=
  graph.entities.filter fun entity => decide (entity.kind = .function)

/-- Whether an entity may have this full name. -/
def isAddressable (name : String) : Bool :=
  !name.isEmpty && !name.toList.contains '.'

/-- Adds an entity at the end. -/
def add (graph : ModuleGraph) (entity : Entity) : Except Diagnostic ModuleGraph :=
  if !isAddressable entity.fullName then .error (.invalidName entity.fullName)
  else if (graph.get? entity.fullName).isSome then .error (.duplicateName entity.fullName)
  else .ok { graph with entities := graph.entities ++ [entity] }

/-- The graph with the given entities, unless one of them cannot be added. -/
def ofEntities (name : String) (entities : List Entity) : Except Diagnostic ModuleGraph :=
  entities.foldlM add { name := name }

/-! ## Identifiers -/

/-- The diagnostics for identifiers that an earlier entity holds; `owners` maps the identifiers so
far to the full names that hold them. -/
def collisionsFrom (config : Config) : Fields String → List Entity → List Diagnostic
  | _, [] => []
  | owners, entity :: rest =>
    if entity.kind.hasIdentifier then
      let identifier := entity.logicalId config
      match owners.find? identifier with
      | some owner =>
        .identifierCollision entity.fullName identifier owner :: collisionsFrom config owners rest
      | none => collisionsFrom config (owners.insert identifier entity.fullName) rest
    else collisionsFrom config owners rest

/-- The diagnostics for entities whose identifier an earlier one holds. -/
def identifierCollisions (graph : ModuleGraph) (config : Config) : List Diagnostic :=
  collisionsFrom config [] graph.entities

/-! ## Equality -/

/-- Equality of graphs without regard to the order of declaration. -/
def sameValue (a b : ModuleGraph) : Bool :=
  a.name == b.name && a.entities.length == b.entities.length &&
    a.entities.all fun entity =>
      match b.get? entity.fullName with
      | some other => entity.sameValue other
      | none => false

/-! ## Well-formed graphs -/

/-- Full names are distinct and addressable. -/
structure Valid (graph : ModuleGraph) : Prop where
  nodup : graph.names.Nodup
  addressable : ∀ name ∈ graph.names, isAddressable name = true

theorem valid_empty (name : String) : Valid { name := name } :=
  ⟨by simp [names], by simp [names]⟩

theorem Valid.add {graph next : ModuleGraph} {entity : Entity} (valid : graph.Valid)
    (h : graph.add entity = .ok next) : next.Valid := by
  unfold ModuleGraph.add at h
  split at h
  · simp at h
  · rename_i haddressable
    split at h
    · simp at h
    · rename_i hnew
      simp only [Except.ok.injEq] at h
      subst h
      have hmem : entity.fullName ∉ graph.names := fun hin =>
        hnew (Entity.find?_isSome_iff.2 hin)
      refine ⟨?_, ?_⟩
      · simp only [names, List.map_append, List.map_cons, List.map_nil]
        exact List.nodup_append.2 ⟨valid.nodup, by simp, by
          intro a ha b hb
          simp only [List.mem_singleton] at hb
          exact fun heq => hmem (hb ▸ heq ▸ ha)⟩
      · intro name hname
        simp only [names, List.map_append, List.map_cons, List.map_nil, List.mem_append,
          List.mem_singleton] at hname
        rcases hname with hname | rfl
        · exact valid.addressable name hname
        · simpa using haddressable

end ModuleGraph

end StackLinker
