import Mathlib.Data.List.MinMax
import Mathlib.Order.Nat
import StackLinker.Proofs.Dependency.Uses

/-!
# Ranks

The rank of an entity says how many rounds it takes until everything that it depends on is settled:
it is 0 for an entity that is free by its shape, and otherwise one more than the largest rank of the
names that its reference uses.  A name has no rank if a name that it leads to is missing, or if it
leads back to itself.

A name has at most one rank (`HasRank.unique`), and the names within a bound of their rank are the
stages of an iteration (`isWithin_zero_iff`, `isWithin_succ_iff`).  Once a stage adds nothing, no
later one does (`HasRank.isWithin`).
-/

namespace StackLinker.ModuleGraph

/-- The rank of a name, as far as it has one. -/
inductive HasRank (config : Config) (graph : ModuleGraph) : String → Nat → Prop
  | free {entity : Entity} (hentity : entity ∈ graph.entities) (hfree : entity.isFree = true) :
      HasRank config graph entity.fullName 0
  | bound {entity : Entity} {rank : String → Nat} (hentity : entity ∈ graph.entities)
      (hbound : entity.isFree = false)
      (h : ∀ name ∈ entity.reference.uses config, HasRank config graph name (rank name)) :
      HasRank config graph entity.fullName
        (1 + ((entity.reference.uses config).map rank).foldr max 0)

/-- Whether a name has a rank of at most `k`. -/
def IsWithin (config : Config) (graph : ModuleGraph) (k : Nat) (name : String) : Prop :=
  ∃ rank ≤ k, graph.HasRank config name rank

/-- The largest rank in a module, or 0 if no name has a rank. -/
structure IsTopRank (config : Config) (graph : ModuleGraph) (top : Nat) : Prop where
  le : ∀ {name rank}, graph.HasRank config name rank → rank ≤ top
  attained : top = 0 ∨ ∃ name, graph.HasRank config name top

variable {config : Config} {graph : ModuleGraph} {entity : Entity} {name : String} {k m n : Nat}

theorem HasRank.mem_names (h : graph.HasRank config name n) : name ∈ graph.names := by
  cases h with
  | free hentity => exact Entity.fullName_mem_names hentity
  | bound hentity => exact Entity.fullName_mem_names hentity

/-- A name has at most one rank. -/
theorem HasRank.unique (hnodup : graph.names.Nodup) (h : graph.HasRank config name m)
    (hother : graph.HasRank config name n) : m = n := by
  have hsame : ∀ {first second : Entity}, first ∈ graph.entities → second ∈ graph.entities →
      second.fullName = first.fullName → second = first := fun hfirst hsecond heq =>
    List.inj_on_of_nodup_map hnodup hsecond hfirst heq
  induction h generalizing n with
  | @free entity hentity hfree =>
      generalize hname : entity.fullName = name at hother
      cases hother with
      | free => rfl
      | bound hmem hbound =>
          obtain rfl := hsame hmem hentity hname
          simp [hfree] at hbound
  | @bound entity rank hentity hbound _ ih =>
      generalize hname : entity.fullName = name at hother
      cases hother with
      | free hmem hfree =>
          obtain rfl := hsame hmem hentity hname
          simp [hbound] at hfree
      | bound hmem _ hranks =>
          obtain rfl := hsame hmem hentity hname
          rw [List.map_congr_left fun name hname => ih name hname (hranks name hname)]

/-- An entity has a rank if all that its reference uses has one. -/
theorem exists_hasRank (hentity : entity ∈ graph.entities)
    (h : ∀ name ∈ entity.reference.uses config, ∃ rank, graph.HasRank config name rank) :
    ∃ rank, graph.HasRank config entity.fullName rank := by
  cases hfree : entity.isFree with
  | true => exact ⟨0, .free hentity hfree⟩
  | false =>
      choose! ranks hranks using h
      exact ⟨_, .bound hentity hfree hranks⟩

theorem IsWithin.mono (h : graph.IsWithin config m name) (hle : m ≤ n) :
    graph.IsWithin config n name := by
  obtain ⟨rank, hrank, h⟩ := h
  exact ⟨rank, hrank.trans hle, h⟩

theorem IsWithin.mem_names (h : graph.IsWithin config k name) : name ∈ graph.names := by
  obtain ⟨rank, -, h⟩ := h
  exact h.mem_names

/-- Only what is free by its shape has rank 0. -/
theorem isWithin_zero_iff : graph.IsWithin config 0 name ↔
    name ∈ Entity.names (graph.entities.filter Entity.isFree) := by
  constructor
  · rintro ⟨rank, hrank, h⟩
    cases h with
    | free hentity hfree => exact Entity.fullName_mem_names (List.mem_filter.2 ⟨hentity, hfree⟩)
    | bound => omega
  · intro h
    obtain ⟨entity, hentity, rfl⟩ := List.mem_map.1 h
    obtain ⟨hmem, hfree⟩ := List.mem_filter.1 hentity
    exact ⟨0, le_rfl, .free hmem hfree⟩

/-- A bound entity has a rank within a bound if all it uses has a smaller one. -/
theorem isWithin_succ_iff (hnodup : graph.names.Nodup) (hentity : entity ∈ graph.entities)
    (hbound : entity.isFree = false) : graph.IsWithin config (k + 1) entity.fullName ↔
      ∀ name ∈ entity.reference.uses config, graph.IsWithin config k name := by
  constructor
  · rintro ⟨rank, hrank, h⟩ name hname
    generalize hfull : entity.fullName = full at h
    cases h with
    | free hmem hfree =>
        obtain rfl := List.inj_on_of_nodup_map hnodup hmem hentity hfull.symm
        simp [hbound] at hfree
    | @bound other ranks hmem _ hranks =>
        obtain rfl := List.inj_on_of_nodup_map hnodup hmem hentity hfull.symm
        have hle : ranks name ≤ ((other.reference.uses config).map ranks).foldr max 0 :=
          List.le_max_of_le' 0 (List.mem_map_of_mem hname) le_rfl
        exact ⟨ranks name, by omega, hranks name hname⟩
  · intro h
    choose! ranks hle hranks using h
    refine ⟨_, ?_, .bound hentity hbound hranks⟩
    have hmax : ((entity.reference.uses config).map ranks).foldr max 0 ≤ k := by
      refine List.max_le_of_forall_le _ k fun rank hrank => ?_
      obtain ⟨name, hname, rfl⟩ := List.mem_map.1 hrank
      exact hle name hname
    omega

/-- Where a stage adds nothing, all ranks have been reached. -/
theorem HasRank.isWithin (h : graph.HasRank config name n) (hnodup : graph.names.Nodup)
    (hstable : ∀ name, graph.IsWithin config (k + 1) name → graph.IsWithin config k name) :
    graph.IsWithin config k name := by
  induction h with
  | free hentity hfree => exact ⟨0, Nat.zero_le k, .free hentity hfree⟩
  | bound hentity hbound _ ih => exact hstable _ ((isWithin_succ_iff hnodup hentity hbound).2 ih)

theorem isTopRank_of_isWithin (hnodup : graph.names.Nodup)
    (hall : ∀ {name n}, graph.HasRank config name n → graph.IsWithin config k name)
    (hattained : k = 0 ∨ ∃ name, graph.HasRank config name k) : graph.IsTopRank config k := by
  refine ⟨fun h => ?_, hattained⟩
  obtain ⟨rank, hrank, hother⟩ := hall h
  exact (h.unique hnodup hother).trans_le hrank

/-- A name of rank `k + 1` comes in with stage `k + 1`. -/
theorem hasRank_succ_iff (hnodup : graph.names.Nodup) : graph.HasRank config name (k + 1) ↔
    graph.IsWithin config (k + 1) name ∧ ¬ graph.IsWithin config k name := by
  constructor
  · intro h
    refine ⟨⟨k + 1, le_rfl, h⟩, ?_⟩
    rintro ⟨rank, hrank, hother⟩
    have := h.unique hnodup hother
    omega
  · rintro ⟨⟨rank, hrank, h⟩, hnot⟩
    have hlt : ¬ rank ≤ k := fun hle => hnot ⟨rank, hle, h⟩
    obtain rfl : rank = k + 1 := by omega
    exact h

end StackLinker.ModuleGraph
