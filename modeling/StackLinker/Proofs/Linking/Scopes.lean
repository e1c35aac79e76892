import Mathlib.Data.List.Infix
import StackLinker.Proofs.Dependency.Cycles
import StackLinker.Proofs.Linking.Environments

/-!
# Expanding scopes

A declared scope may list a function several times, by its name and by wildcards.  The expanded
scope keeps the first appearance of every function (`isExpansion_expandScope`), and every entry that
stands for nothing has its own diagnostic (`scopes_expanded_once`).

Expanding twice is expanding once (`expandScope_expandScope`).  Lists are compared by their first
appearances, that is, by `List.eraseDups`.  This comparison is a congruence for joining lists and
for `flatMap`, so the statement comes down to one entry of a scope.  The one entry that needs an
argument is a wildcard that is also the name of a function: in the list of all functions it stands
for the whole list once more.
-/

namespace List

variable {α β : Type} [DecidableEq α] {xs ys : List α}

/-! ## First appearances -/

theorem eraseDups_append_of_subset (h : ys ⊆ xs) : (xs ++ ys).eraseDups = xs.eraseDups := by
  have hnone : ys.removeAll xs = [] := by
    simpa [List.removeAll, List.filter_eq_nil_iff] using fun y hy => h hy
  rw [eraseDups_append, hnone, eraseDups_nil, append_nil]

theorem eraseDups_concat_of_notMem {x : α} (h : x ∉ xs) :
    (xs ++ [x]).eraseDups = xs.eraseDups ++ [x] := by
  have hself : [x].removeAll xs = [x] := by simp [List.removeAll, h]
  rw [eraseDups_append, hself]
  rfl

theorem eraseDups_filter (p : α → Bool) (xs : List α) :
    (xs.filter p).eraseDups = xs.eraseDups.filter p := by
  induction xs using reverseRecOn with
  | nil => rfl
  | append_singleton xs x ih =>
      by_cases hx : x ∈ xs
      · have hsubset : [x].filter p ⊆ xs.filter p := by
          intro y hy
          obtain ⟨hy, hp⟩ := mem_filter.1 hy
          exact mem_filter.2 ⟨mem_singleton.1 hy ▸ hx, hp⟩
        rw [filter_append, eraseDups_append_of_subset hsubset, ih,
          eraseDups_append_of_subset (by simpa using hx)]
      · rw [eraseDups_concat_of_notMem hx, filter_append, filter_append]
        cases hp : p x with
        | false => simpa [hp] using ih
        | true =>
            have hnot : x ∉ xs.filter p := fun hmem => hx (mem_of_mem_filter hmem)
            rw [filter_singleton, hp, cond_true, eraseDups_concat_of_notMem hnot, ih]

/-- First appearances of joined lists depend on those of the parts. -/
theorem eraseDups_append_congr {xs' ys' : List α} (hx : xs.eraseDups = xs'.eraseDups)
    (hy : ys.eraseDups = ys'.eraseDups) : (xs ++ ys).eraseDups = (xs' ++ ys').eraseDups := by
  have hmem : ∀ y, y ∈ xs ↔ y ∈ xs' := by
    intro y
    rw [← mem_eraseDups, hx, mem_eraseDups]
  have hremove : (ys.removeAll xs).eraseDups = (ys'.removeAll xs').eraseDups := by
    have hsame : (fun y => !xs.elem y) = fun y => !xs'.elem y := by
      funext y
      rw [Bool.eq_iff_iff]
      simp [hmem]
    simp only [List.removeAll, eraseDups_filter, hy, hsame]
  rw [eraseDups_append, eraseDups_append, hx, hremove]

theorem eraseDups_flatMap_congr {f g : β → List α} {xs : List β}
    (h : ∀ x ∈ xs, (f x).eraseDups = (g x).eraseDups) :
    (xs.flatMap f).eraseDups = (xs.flatMap g).eraseDups := by
  induction xs with
  | nil => rfl
  | cons x xs ih =>
      rw [flatMap_cons, flatMap_cons]
      exact eraseDups_append_congr (h x mem_cons_self) (ih fun y hy => h y (mem_cons_of_mem _ hy))

/-- Repeated items add nothing to a `flatMap` that has not appeared before. -/
theorem eraseDups_flatMap_eraseDups [DecidableEq β] (f : α → List β) (xs : List α) :
    (xs.eraseDups.flatMap f).eraseDups = (xs.flatMap f).eraseDups := by
  induction xs using reverseRecOn with
  | nil => rfl
  | append_singleton xs x ih =>
      rw [flatMap_append, flatMap_singleton]
      by_cases hx : x ∈ xs
      · have hsubset : f x ⊆ xs.flatMap f := fun y hy => mem_flatMap.2 ⟨x, hx, hy⟩
        rw [eraseDups_append_of_subset (by simpa using hx), ih, eraseDups_append_of_subset hsubset]
      · rw [eraseDups_concat_of_notMem hx, flatMap_append, flatMap_singleton]
        exact eraseDups_append_congr ih rfl

/-- What has appeared once may be put in front again. -/
theorem eraseDups_append_self_append (xs ys : List α) :
    (xs ++ (xs ++ ys)).eraseDups = (xs ++ ys).eraseDups := by
  have hself : (xs ++ ys).removeAll xs = ys.removeAll xs := by
    rw [List.removeAll, filter_append]
    simp [List.removeAll]
  rw [eraseDups_append, hself, ← eraseDups_append]

/-- Items are listed in the order of their first appearances. -/
theorem pairwise_eraseDups (xs : List α) :
    xs.eraseDups.Pairwise fun x y => xs.idxOf x < xs.idxOf y := by
  induction xs using reverseRecOn with
  | nil => exact Pairwise.nil
  | append_singleton xs x ih =>
      have hfront : ∀ y ∈ xs, (xs ++ [x]).idxOf y = xs.idxOf y := fun y hy =>
        idxOf_append_of_mem hy
      have hpairs : xs.eraseDups.Pairwise
          fun y z => (xs ++ [x]).idxOf y < (xs ++ [x]).idxOf z := by
        refine ih.imp_of_mem fun hy hz hlt => ?_
        rwa [hfront _ (mem_eraseDups.1 hy), hfront _ (mem_eraseDups.1 hz)]
      by_cases hx : x ∈ xs
      · rwa [eraseDups_append_of_subset (by simpa using hx)]
      · rw [eraseDups_concat_of_notMem hx]
        refine pairwise_append.2 ⟨hpairs, pairwise_singleton _ _, fun y hy z hz => ?_⟩
        have hy := mem_eraseDups.1 hy
        rw [mem_singleton.1 hz, hfront y hy, idxOf_append_of_notMem hx]
        exact Nat.lt_of_lt_of_le (idxOf_lt_length_iff.2 hy) (Nat.le_add_right _ _)

end List

namespace StackLinker

namespace Entity

variable {config : Config} {functions : List String} {entity : Entity} {entry function : String}

/-! ## The scope of one entity -/

/-- The declared scope with all functions in the place of each wildcard. -/
def spelledScope (config : Config) (functions : List String) (entity : Entity) : List String :=
  entity.scope.flatMap fun entry => if entry = config.wildcardScope then functions else [entry]

/-- What the scope of an entity becomes. -/
structure IsExpansion (config : Config) (functions : List String) (before after : Entity) :
    Prop where
  /-- Nothing but the scope changes. -/
  rest : after = { before with scope := after.scope }
  nodup : after.scope.Nodup
  /-- Functions are in the scope if they were listed, by name or by a wildcard. -/
  mem : ∀ function, function ∈ after.scope ↔
    function ∈ functions ∧ (function ∈ before.scope ∨ config.wildcardScope ∈ before.scope)
  /-- They come in the order of their first appearances. -/
  order : after.scope.Pairwise fun first second =>
    (before.spelledScope config functions).idxOf first <
      (before.spelledScope config functions).idxOf second

theorem mem_of_mem_scopeEntry (h : function ∈ scopeEntry config functions entry) :
    function ∈ functions := by
  unfold scopeEntry at h
  split at h
  · exact h
  · split at h
    · rename_i hentry
      rw [List.mem_singleton.1 h]
      exact List.contains_iff_mem.1 hentry
    · simp at h

theorem mem_expandScope : function ∈ (entity.expandScope config functions).scope ↔
    function ∈ functions ∧ (function ∈ entity.scope ∨ config.wildcardScope ∈ entity.scope) := by
  constructor
  · intro h
    have hfunction : function ∈ functions := by
      obtain ⟨entry, -, hentry⟩ := List.mem_flatMap.1 (List.mem_eraseDups.1 h)
      exact mem_of_mem_scopeEntry hentry
    exact ⟨hfunction, ((isVisible_iff hfunction).1 (List.contains_iff_mem.2 h)).symm⟩
  · rintro ⟨hfunction, h⟩
    exact List.contains_iff_mem.1 ((isVisible_iff hfunction).2 h.symm)

/-- The expanded scope is the spelled-out scope without repetitions and unknown names. -/
theorem scope_expandScope (config : Config) (functions : List String) (entity : Entity) :
    (entity.expandScope config functions).scope =
      (entity.spelledScope config functions).eraseDups.filter (functions.contains ·) := by
  have hentry : ∀ entry, scopeEntry config functions entry =
      (if entry = config.wildcardScope then functions else [entry]).filter
        (functions.contains ·) := by
    intro entry
    unfold scopeEntry
    split
    · exact (List.filter_eq_self.2 fun _ h => List.contains_iff_mem.2 h).symm
    · rw [List.filter_singleton]
      cases functions.contains entry <;> rfl
  have hflat : entity.scope.flatMap (scopeEntry config functions) =
      (entity.spelledScope config functions).filter (functions.contains ·) := by
    rw [spelledScope, List.filter_flatMap]
    exact List.flatMap_congr fun entry _ => hentry entry
  rw [← List.eraseDups_filter, ← hflat]
  rfl

theorem isExpansion_expandScope (config : Config) (functions : List String) (entity : Entity) :
    IsExpansion config functions entity (entity.expandScope config functions) where
  rest := rfl
  nodup := nodup_eraseDups _
  mem _ := mem_expandScope
  order := by
    rw [scope_expandScope]
    exact (List.pairwise_eraseDups _).sublist List.filter_sublist

/-! ## Expanding twice -/

theorem flatMap_scopeEntry_of_notMem {names : List String} (hnames : names ⊆ functions)
    (hwildcard : config.wildcardScope ∉ names) :
    names.flatMap (scopeEntry config functions) = names := by
  have hself : ∀ name ∈ names, scopeEntry config functions name = [name] := by
    intro name hname
    have hne : name ≠ config.wildcardScope := fun heq => hwildcard (heq ▸ hname)
    rw [scopeEntry, if_neg hne, if_pos (List.contains_iff_mem.2 (hnames hname))]
  rw [List.flatMap_congr hself, List.flatMap_singleton']

/-- All functions stand for all functions, also if one of them is called like the wildcard. -/
theorem eraseDups_flatMap_functions (config : Config) (functions : List String) :
    (functions.flatMap (scopeEntry config functions)).eraseDups = functions.eraseDups := by
  by_cases hwildcard : config.wildcardScope ∈ functions
  · obtain ⟨before, after, heq, hbefore⟩ := List.eq_append_cons_of_mem hwildcard
    have hsubset : before ⊆ functions := by simp [heq]
    have hrest : after.flatMap (scopeEntry config functions) ⊆ functions := by
      intro function h
      obtain ⟨entry, -, hentry⟩ := List.mem_flatMap.1 h
      exact mem_of_mem_scopeEntry hentry
    have hall : scopeEntry config functions config.wildcardScope = functions := if_pos rfl
    calc (functions.flatMap (scopeEntry config functions)).eraseDups
        = (before ++ (functions ++ after.flatMap (scopeEntry config functions))).eraseDups := by
          conv_lhs => enter [1, 2]; rw [heq]
          rw [List.flatMap_append, List.flatMap_cons, hall,
            flatMap_scopeEntry_of_notMem hsubset hbefore]
      _ = (before ++ functions).eraseDups :=
          List.eraseDups_append_congr rfl (List.eraseDups_append_of_subset hrest)
      _ = functions.eraseDups := by
          rw [heq]
          exact List.eraseDups_append_self_append _ _
  · rw [flatMap_scopeEntry_of_notMem (List.Subset.refl _) hwildcard]

/-- What an entry stands for stands for the same. -/
theorem eraseDups_flatMap_scopeEntry (config : Config) (functions : List String) (entry : String) :
    ((scopeEntry config functions entry).flatMap (scopeEntry config functions)).eraseDups =
      (scopeEntry config functions entry).eraseDups := by
  by_cases hwildcard : entry = config.wildcardScope
  · have hall : scopeEntry config functions entry = functions := if_pos hwildcard
    rw [hall]
    exact eraseDups_flatMap_functions config functions
  · by_cases hentry : functions.contains entry = true
    · have hself : scopeEntry config functions entry = [entry] := by
        rw [scopeEntry, if_neg hwildcard, if_pos hentry]
      rw [hself, List.flatMap_singleton, hself]
    · have hnone : scopeEntry config functions entry = [] := by
        rw [scopeEntry, if_neg hwildcard, if_neg hentry]
      rw [hnone, List.flatMap_nil]

theorem expandScope_expandScope (config : Config) (functions : List String) (entity : Entity) :
    (entity.expandScope config functions).expandScope config functions =
      entity.expandScope config functions := by
  have hscope : ((entity.scope.flatMap (scopeEntry config functions)).eraseDups.flatMap
      (scopeEntry config functions)).eraseDups =
      (entity.scope.flatMap (scopeEntry config functions)).eraseDups := by
    rw [List.eraseDups_flatMap_eraseDups, List.flatMap_assoc]
    exact List.eraseDups_flatMap_congr fun entry _ => eraseDups_flatMap_scopeEntry _ _ entry
  simp only [expandScope, hscope]

/-- An expanded scope has no unknown entries. -/
theorem scopeDiagnostics_expandScope (config : Config) (functions : List String)
    (entity : Entity) :
    scopeDiagnostics config functions (entity.expandScope config functions) = [] := by
  rw [scopeDiagnostics, List.map_eq_nil_iff, List.filter_eq_nil_iff]
  intro function hfunction
  simp [isUnknownScope, (mem_expandScope.1 hfunction).1]

end Entity

namespace ModuleGraph

variable {config : Config} {graph : ModuleGraph} {entry : String}

/-! ## All scopes -/

/-- The scope entries of a module in order, each with the full name of its entity. -/
def scopeEntries (graph : ModuleGraph) : List (String × String) :=
  graph.entities.flatMap fun entity => entity.scope.map fun entry => (entity.fullName, entry)

theorem mem_scopeEntries {name : String} : (name, entry) ∈ graph.scopeEntries ↔
    ∃ entity ∈ graph.entities, entity.fullName = name ∧ entry ∈ entity.scope := by
  simp only [scopeEntries, List.mem_flatMap, List.mem_map, Prod.mk.injEq]
  constructor
  · rintro ⟨entity, hentity, other, hentry, rfl, rfl⟩
    exact ⟨entity, hentity, rfl, hentry⟩
  · rintro ⟨entity, hentity, rfl, hentry⟩
    exact ⟨entity, hentity, entry, hentry, rfl, rfl⟩

/-- Whether a scope entry stands for something: it is the wildcard or the name of a function. -/
def IsKnownScope (config : Config) (graph : ModuleGraph) (entry : String) : Prop :=
  entry = config.wildcardScope ∨
    ∃ entity ∈ graph.entities, entity.kind = .function ∧ entity.fullName = entry

instance : DecidablePred (graph.IsKnownScope config) := fun entry =>
  inferInstanceAs (Decidable (entry = config.wildcardScope ∨
    ∃ entity ∈ graph.entities, entity.kind = .function ∧ entity.fullName = entry))

theorem mem_functionNames_iff : entry ∈ graph.functionNames ↔
    ∃ entity ∈ graph.entities, entity.kind = .function ∧ entity.fullName = entry := by
  simp [functionNames, functions, and_assoc]

theorem isUnknownScope_iff :
    Entity.isUnknownScope config graph.functionNames entry = true ↔
      ¬ graph.IsKnownScope config entry := by
  simp [Entity.isUnknownScope, IsKnownScope, ← mem_functionNames_iff]

/-- Each occurrence of an unknown entry has one diagnostic, in order. -/
theorem diagnostics_expandScopes (config : Config) (graph : ModuleGraph) :
    (graph.expandScopes config).2 =
      (graph.scopeEntries.filter fun occurrence => ¬ graph.IsKnownScope config occurrence.2).map
        fun occurrence => .unknownScope occurrence.1 occurrence.2 := by
  have hunknown : Entity.isUnknownScope config graph.functionNames =
      fun entry => decide (¬ graph.IsKnownScope config entry) := by
    funext entry
    rw [Bool.eq_iff_iff, decide_eq_true_iff, isUnknownScope_iff]
  rw [scopeEntries, List.filter_flatMap, List.map_flatMap]
  refine List.flatMap_congr fun entity _ => ?_
  rw [List.filter_map, List.map_map, Entity.scopeDiagnostics, hunknown]
  rfl

/-- Expanding the scopes of a module is exact and stable.  Each occurrence of an entry that is
neither the wildcard nor the name of a function has one diagnostic, in the order of the entities and
of their entries, and there are no others.  Every scope becomes the functions that it listed, by
name or by a wildcard, each once and in the order of their first appearances.  Expanding once more
finds nothing and changes nothing, whatever the functions are called. -/
theorem scopes_expanded_once (config : Config) (graph : ModuleGraph) :
    (graph.expandScopes config).2 =
        (graph.scopeEntries.filter fun occurrence =>
          ¬ graph.IsKnownScope config occurrence.2).map
          (fun occurrence => .unknownScope occurrence.1 occurrence.2) ∧
      ((graph.expandScopes config).2 = [] ↔
        ∀ entity ∈ graph.entities, ∀ entry ∈ entity.scope, graph.IsKnownScope config entry) ∧
      (graph.expandScopes config).1.name = graph.name ∧
      List.Forall₂ (Entity.IsExpansion config graph.functionNames) graph.entities
        (graph.expandScopes config).1.entities ∧
      (graph.expandScopes config).1.expandScopes config = ((graph.expandScopes config).1, []) := by
  refine ⟨diagnostics_expandScopes config graph, ?known, rfl, ?exact, ?stable⟩
  case known =>
    rw [diagnostics_expandScopes, List.map_eq_nil_iff, List.filter_eq_nil_iff]
    simp only [decide_eq_true_eq, not_not]
    constructor
    · exact fun h entity hentity entry hentry =>
        h (entity.fullName, entry) (mem_scopeEntries.2 ⟨entity, hentity, rfl, hentry⟩)
    · rintro h ⟨name, entry⟩ hoccurrence
      obtain ⟨entity, hentity, -, hentry⟩ := mem_scopeEntries.1 hoccurrence
      exact h entity hentity entry hentry
  case exact =>
    simp only [expandScopes, List.forall₂_map_right_iff]
    exact List.forall₂_same.2 fun entity _ =>
      Entity.isExpansion_expandScope config graph.functionNames entity
  case stable =>
    have hnames : (graph.expandScopes config).1.functionNames = graph.functionNames :=
      functionNames_expandScopes config graph
    have hentities : (graph.expandScopes config).1.entities.map
        (Entity.expandScope config graph.functionNames) =
        (graph.expandScopes config).1.entities := by
      simp [expandScopes, Function.comp_def, Entity.expandScope_expandScope]
    have hdiagnostics : (graph.expandScopes config).1.entities.flatMap
        (Entity.scopeDiagnostics config graph.functionNames) = [] := by
      simp [expandScopes, List.flatMap_map, Entity.scopeDiagnostics_expandScope]
    have hexpand : ∀ other : ModuleGraph, other.expandScopes config =
        ({ other with
            entities := other.entities.map (Entity.expandScope config other.functionNames) },
          other.entities.flatMap (Entity.scopeDiagnostics config other.functionNames)) :=
      fun _ => rfl
    rw [hexpand (graph.expandScopes config).1, hnames, hentities, hdiagnostics]

end ModuleGraph

end StackLinker
