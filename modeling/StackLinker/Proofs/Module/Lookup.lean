import Mathlib.Data.List.Forall2
import Mathlib.Data.List.Nodup
import Mathlib.Data.List.Perm.Basic
import StackLinker.Partition

/-!
# Looking up entities

Entities are kept in lists and found by their full names.  As long as the names are distinct, a
list of entities is as good as a map: an entity is found under its own name and under no other
(`find?_eq_some_iff`).  Listing the entities of a partition by the names in its order gives all of
them back (`perm_toGraph`).

Stages that change the entities of a module one by one relate two lists member by member, by
`List.Forall₂`.
-/

namespace List.Forall₂

variable {α β γ : Type} {R : α → β → Prop} {S : β → γ → Prop} {xs : List α} {ys : List β}
  {zs : List γ}

theorem exists_of_mem_left (h : Forall₂ R xs ys) {x : α} (hx : x ∈ xs) : ∃ y ∈ ys, R x y := by
  induction h with
  | nil => simp at hx
  | @cons first y rest ys hfirst _ ih =>
      rcases List.mem_cons.1 hx with rfl | hx
      · exact ⟨y, List.mem_cons_self, hfirst⟩
      · obtain ⟨z, hz, hR⟩ := ih hx
        exact ⟨z, List.mem_cons_of_mem _ hz, hR⟩

theorem exists_of_mem_right (h : Forall₂ R xs ys) {y : β} (hy : y ∈ ys) : ∃ x ∈ xs, R x y :=
  exists_of_mem_left h.flip hy

/-- What related members share, the lists share. -/
theorem map_eq_map {f : α → γ} {g : β → γ} (h : Forall₂ R xs ys)
    (hR : ∀ {x y}, R x y → f x = g y) : xs.map f = ys.map g := by
  induction h with
  | nil => rfl
  | cons hfirst _ ih => rw [List.map_cons, List.map_cons, hR hfirst, ih]

theorem imp_of_mem {T : α → β → Prop} (h : Forall₂ R xs ys)
    (hR : ∀ {x y}, x ∈ xs → y ∈ ys → R x y → T x y) : Forall₂ T xs ys := by
  induction h with
  | nil => exact .nil
  | cons hfirst _ ih =>
      exact .cons (hR List.mem_cons_self List.mem_cons_self hfirst)
        (ih fun hx hy => hR (List.mem_cons_of_mem _ hx) (List.mem_cons_of_mem _ hy))

/-- One stage after the other. -/
theorem comp (first : Forall₂ R xs ys) (second : Forall₂ S ys zs) :
    Forall₂ (fun x z => ∃ y, R x y ∧ S y z) xs zs := by
  induction first generalizing zs with
  | nil =>
      cases second
      exact .nil
  | cons hfirst _ ih =>
      cases second with
      | cons hsecond hrest => exact .cons ⟨_, hfirst, hsecond⟩ (ih hrest)

/-- Selecting members of the first list goes along with rendering those of the second one. -/
theorem filter_filterMap {T : α → γ → Prop} {p : α → Bool} {f : β → Option γ}
    (h : Forall₂ R xs ys) (hselected : ∀ {x y}, R x y → p x = true → ∃ z, f y = some z ∧ T x z)
    (hleft : ∀ {x y}, R x y → p x = false → f y = none) :
    Forall₂ T (xs.filter p) (ys.filterMap f) := by
  induction h with
  | nil => exact .nil
  | @cons x y _ _ hfirst _ ih =>
      cases hx : p x with
      | true =>
          obtain ⟨z, hz, hT⟩ := hselected hfirst hx
          rw [List.filter_cons_of_pos hx, List.filterMap_cons_some hz]
          exact .cons hT ih
      | false =>
          rw [List.filter_cons_of_neg (by simp [hx]), List.filterMap_cons_none (hleft hfirst hx)]
          exact ih

end List.Forall₂

namespace StackLinker

/-- Scalars and lists of scalars are settled by their shape. -/
theorem Value.classify_eq_free_iff {v : Value} {name : String} :
    v.classify name = .ok .free ↔
      (∃ s, v = .scalar s) ∨ ∃ items, v = .list items ∧ ∀ item ∈ items, ∃ s, item = .scalar s := by
  have hscalar : ∀ item : Value, item.isScalar = true ↔ ∃ s, item = .scalar s := by
    intro item
    cases item <;> simp [isScalar]
  cases v with
  | list items =>
      have hitems : items.all isScalar = true ↔ ∀ item ∈ items, ∃ s, item = .scalar s := by
        simp only [List.all_eq_true, hscalar]
      simp [classify, hitems]
  | _ => simp [classify]

namespace Entity

/-- A value with nothing but its reference. -/
def value (name : String) (reference : Value) : Entity :=
  { fullName := name, kind := .value, reference := reference }

/-- The full names of entities, in order. -/
def names (entities : List Entity) : List String := entities.map (·.fullName)

@[simp] theorem names_nil : names [] = [] := rfl

@[simp] theorem names_cons (entity : Entity) (rest : List Entity) :
    names (entity :: rest) = entity.fullName :: names rest := rfl

@[simp] theorem names_append (first second : List Entity) :
    names (first ++ second) = names first ++ names second := by
  simp [names]

@[simp] theorem length_names (entities : List Entity) :
    (names entities).length = entities.length := by
  simp [names]

theorem fullName_mem_names {entity : Entity} {entities : List Entity} (h : entity ∈ entities) :
    entity.fullName ∈ names entities :=
  List.mem_map_of_mem h

theorem mem_of_find? {name : String} {entities : List Entity} {entity : Entity}
    (h : find? name entities = some entity) : entity ∈ entities := by
  induction entities with
  | nil => simp [find?] at h
  | cons first rest ih =>
      by_cases hfirst : first.fullName = name
      · simp only [find?, hfirst, if_true, Option.some.injEq] at h
        exact h ▸ List.mem_cons_self
      · simp only [find?, hfirst, if_false] at h
        exact List.mem_cons_of_mem _ (ih h)

theorem find?_eq_none_iff {name : String} {entities : List Entity} :
    find? name entities = none ↔ name ∉ names entities := by
  rw [names, ← find?_isSome_iff, Option.not_isSome_iff_eq_none]

theorem exists_find? {name : String} {entities : List Entity} (h : name ∈ names entities) :
    ∃ entity, find? name entities = some entity :=
  Option.isSome_iff_exists.1 (find?_isSome_iff.2 h)

theorem find?_append (name : String) (first second : List Entity) :
    find? name (first ++ second) = (find? name first).or (find? name second) := by
  induction first with
  | nil => rfl
  | cons entity rest ih =>
      by_cases h : entity.fullName = name <;> simp [find?, h, ih]

/-- Among distinct names, an entity is found under its own name. -/
theorem find?_eq_some_iff {name : String} {entities : List Entity} {entity : Entity}
    (hnodup : (names entities).Nodup) :
    find? name entities = some entity ↔ entity ∈ entities ∧ entity.fullName = name := by
  refine ⟨fun h => ⟨mem_of_find? h, fullName_of_find? h⟩, ?_⟩
  rintro ⟨hmem, rfl⟩
  obtain ⟨found, hfound⟩ := exists_find? (fullName_mem_names hmem)
  rw [hfound, List.inj_on_of_nodup_map hnodup (mem_of_find? hfound) hmem (fullName_of_find? hfound)]

/-- Among distinct names, the order of the entities does not matter. -/
theorem find?_perm {name : String} {entities others : List Entity} (hnodup : (names entities).Nodup)
    (hperm : entities.Perm others) : find? name entities = find? name others := by
  have hothers : (names others).Nodup := (hperm.map _).nodup_iff.1 hnodup
  ext entity
  rw [find?_eq_some_iff hnodup, find?_eq_some_iff hothers, hperm.mem_iff]

/-- Looking up each name of a list of distinct entities gives the entities back. -/
theorem filterMap_find?_names {entities : List Entity} (hnodup : (names entities).Nodup) :
    (names entities).filterMap (fun name => find? name entities) = entities := by
  have hfound : ∀ entity ∈ entities, find? entity.fullName entities = some entity :=
    fun entity hmem => (find?_eq_some_iff hnodup).2 ⟨hmem, rfl⟩
  rw [names, List.filterMap_map]
  calc entities.filterMap _ = entities.filterMap some := List.filterMap_congr hfound
    _ = entities := List.filterMap_some

/-- Looking up the names of entities gives one entity for each. -/
theorem forall₂_filterMap_names {lookup : String → Option Entity} {R : Entity → Entity → Prop}
    {entities : List Entity}
    (h : ∀ entity ∈ entities, ∃ found, lookup entity.fullName = some found ∧ R entity found) :
    List.Forall₂ R entities ((names entities).filterMap lookup) := by
  induction entities with
  | nil => exact .nil
  | cons entity rest ih =>
      obtain ⟨found, hfound, hR⟩ := h entity List.mem_cons_self
      rw [names_cons, List.filterMap_cons_some hfound]
      exact .cons hR (ih fun other hother => h other (List.mem_cons_of_mem _ hother))

/-! ## Free and bound entities -/

/-- Whether the shape of a reference settles it. -/
def isFree (entity : Entity) : Bool :=
  decide (entity.reference.classify entity.fullName = .ok .free)

/-- Entities without nulls can be split. -/
theorem exists_split {entities : List Entity} (h : ∀ entity ∈ entities, entity.reference ≠ .null) :
    ∃ parts, split entities = .ok parts := by
  induction entities with
  | nil => exact ⟨_, rfl⟩
  | cons entity rest ih =>
      obtain ⟨parts, hrest⟩ := ih fun other hother => h other (List.mem_cons_of_mem _ hother)
      have hclass : ∃ classification,
          entity.reference.classify entity.fullName = .ok classification := by
        have hnull := h entity List.mem_cons_self
        cases hreference : entity.reference with
        | null => exact absurd hreference hnull
        | _ => exact ⟨_, rfl⟩
      obtain ⟨classification, hclass⟩ := hclass
      exact ⟨classification.place entity parts, by simp [split, hclass, hrest, Except.map]⟩

theorem ne_null_of_split {entities : List Entity} {parts : List Entity × List Entity}
    (h : split entities = .ok parts) : ∀ entity ∈ entities, entity.reference ≠ .null := by
  induction entities generalizing parts with
  | nil => simp
  | cons entity rest ih =>
      simp only [split] at h
      split at h
      · simp at h
      · rename_i classification hclass
        cases hrest : split rest with
        | error e => simp [hrest, Except.map] at h
        | ok others =>
            refine List.forall_mem_cons.2 ⟨fun hnull => ?_, ih hrest⟩
            simp [hnull, Value.classify] at hclass

/-- Splitting keeps the free and the bound entities apart, each in their order. -/
theorem split_eq_ok {entities free bound : List Entity}
    (h : split entities = .ok (free, bound)) :
    free = entities.filter isFree ∧ bound = entities.filter fun entity => !entity.isFree := by
  induction entities generalizing free bound with
  | nil =>
      simp only [split, Except.ok.injEq, Prod.mk.injEq] at h
      simp [← h.1, ← h.2]
  | cons entity rest ih =>
      simp only [split] at h
      split at h
      · simp at h
      · rename_i classification hclass
        cases hrest : split rest with
        | error e => simp [hrest, Except.map] at h
        | ok parts =>
            obtain ⟨hfree, hbound⟩ := ih hrest
            simp only [hrest, Except.map, Except.ok.injEq] at h
            cases classification <;>
              simp only [Classification.place, Prod.mk.injEq] at h <;>
              simp [isFree, hclass, ← h.1, ← h.2, hfree, hbound]

end Entity

namespace Partition

/-- All entities of a partition. -/
def entities (partition : Partition) : List Entity := partition.free ++ partition.bound

theorem get?_eq_find? (partition : Partition) (name : String) :
    partition.get? name = Entity.find? name partition.entities :=
  (Entity.find?_append name partition.free partition.bound).symm

private theorem names_filterMap {lookup : String → Option Entity} {order : List String}
    (h : ∀ name ∈ order, ∃ entity, lookup name = some entity ∧ entity.fullName = name) :
    Entity.names (order.filterMap lookup) = order := by
  induction order with
  | nil => rfl
  | cons name rest ih =>
      obtain ⟨entity, hentity, hname⟩ := h name List.mem_cons_self
      have hrest := ih fun other hother => h other (List.mem_cons_of_mem _ hother)
      simp [hentity, hname, hrest]

/-- The module of a partition holds its entities under the names in its order. -/
theorem names_toGraph {partition : Partition}
    (hperm : (Entity.names partition.entities).Perm partition.order) :
    partition.toGraph.names = partition.order := by
  refine names_filterMap fun name hname => ?_
  obtain ⟨entity, hentity⟩ := Entity.exists_find? (hperm.mem_iff.2 hname)
  exact ⟨entity, (get?_eq_find? partition name).trans hentity, Entity.fullName_of_find? hentity⟩

/-- The module of a partition is made of exactly its entities. -/
theorem perm_toGraph {partition : Partition}
    (hperm : (Entity.names partition.entities).Perm partition.order)
    (hnodup : partition.order.Nodup) : partition.toGraph.entities.Perm partition.entities := by
  have hnames : (Entity.names partition.entities).Nodup := hperm.nodup_iff.2 hnodup
  have hget : partition.get? = fun name => Entity.find? name partition.entities :=
    funext fun name => get?_eq_find? partition name
  have horder := hperm.symm.filterMap fun name => Entity.find? name partition.entities
  rw [Entity.filterMap_find?_names hnames] at horder
  rw [toGraph, hget]
  exact horder

end Partition

namespace ModuleGraph

/-- What the partition of a graph consists of. -/
theorem partition_eq_ok {graph : ModuleGraph} {partition : Partition}
    (h : graph.partition = .ok partition) :
    partition.name = graph.name ∧ partition.order = graph.names ∧
      partition.free = graph.entities.filter Entity.isFree ∧
      partition.bound = graph.entities.filter fun entity => !entity.isFree := by
  unfold ModuleGraph.partition at h
  rcases hsplit : Entity.split graph.entities with e | ⟨free, bound⟩
  · simp [hsplit, Except.map] at h
  · simp only [hsplit, Except.map, Except.ok.injEq] at h
    subst h
    exact ⟨rfl, rfl, Entity.split_eq_ok hsplit⟩

theorem perm_partition {graph : ModuleGraph} {partition : Partition}
    (h : graph.partition = .ok partition) : partition.entities.Perm graph.entities := by
  obtain ⟨-, -, hfree, hbound⟩ := partition_eq_ok h
  rw [Partition.entities, hfree, hbound]
  exact List.filter_append_perm _ _

theorem valid_ofEntities {name : String} {entities : List Entity} {graph : ModuleGraph}
    (h : ofEntities name entities = .ok graph) : graph.Valid := by
  have hfold : ∀ (entities : List Entity) (start : ModuleGraph), start.Valid →
      entities.foldlM add start = .ok graph → graph.Valid := by
    intro entities
    induction entities with
    | nil =>
        intro start hstart hfold
        simp only [List.foldlM_nil, pure, Except.pure, Except.ok.injEq] at hfold
        exact hfold ▸ hstart
    | cons entity rest ih =>
        intro start hstart hfold
        rw [List.foldlM_cons] at hfold
        cases hadd : start.add entity with
        | error e => simp [hadd, bind, Except.bind] at hfold
        | ok next =>
            have hrest : rest.foldlM add next = .ok graph := by
              simpa [hadd, bind, Except.bind] using hfold
            exact ih next (hstart.add hadd) hrest
  exact hfold entities _ (valid_empty name) h

end ModuleGraph

end StackLinker
