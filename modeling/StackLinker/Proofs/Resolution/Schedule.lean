import Mathlib.Data.List.GetD
import StackLinker.Proofs.Dependency.Rank
import StackLinker.Proofs.Resolution.Accounting
import StackLinker.Proofs.Substitution.Answers

/-!
# When entities are promoted

Suppose that each sweep promotes exactly those bound entities all of whose declared dependencies are
free (`Schedules`).  Then the ranks of the entities are a timetable for the run: after `k`
iterations exactly the entities of rank at most `k` are free (`OnSchedule`), and the run ends when
no rank is left (`Schedules.run`).

This module knows nothing of what a pass does to a reference; whoever wants to use it has to show
that the sweeps keep to the declared dependencies.
-/

namespace StackLinker.Resolver

variable {config : Config} {catalog : Catalog} {graph : ModuleGraph} {partition : Partition}
  {first resolver next last : Resolver} {rounds : List (List String)} {n : Nat} {name : String}
  {Inv : Resolver → Prop}

/-- An invariant of the steps under which a sweep reaches its end and promotes exactly the bound
entities whose declared dependencies are free. -/
structure Schedules (config : Config) (graph : ModuleGraph) (Inv : Resolver → Prop) : Prop where
  passes : ∀ {resolver}, Inv resolver →
    ∀ pending ∈ resolver.waiting, resolver.surroundings.Passes pending
  step : ∀ {resolver next n}, Inv resolver → resolver.step = (next, .ok n) → Inv next
  promotes : ∀ {resolver}, Inv resolver → ∀ name, name ∈ resolver.promotedNames ↔
    name ∈ Entity.names resolver.bound ∧
      ∀ other, graph.DependsOn config name other → other ∈ Entity.names resolver.free

/-- Where a run stands after iterations that promoted the names in `rounds`. -/
structure OnSchedule (config : Config) (graph : ModuleGraph) (first : Resolver)
    (rounds : List (List String)) (resolver : Resolver) : Prop where
  iterated : Iterated first rounds resolver
  kept : Kept graph rounds resolver
  free : ∀ name, name ∈ Entity.names resolver.free ↔ graph.IsWithin config rounds.length name
  promoted : ∀ i name, name ∈ rounds.getD i [] ↔
    i < rounds.length ∧ graph.HasRank config name (i + 1)

/-- How a run whose iterations promoted the names in `rounds` ends. -/
structure FollowsRanks (config : Config) (graph : ModuleGraph) (rounds : List (List String))
    (last : Resolver) : Prop where
  /-- An entity is promoted in the iteration that its rank says. -/
  promoted : ∀ i name, name ∈ rounds.getD i [] ↔ graph.HasRank config name (i + 1)
  /-- What has no rank stays bound. -/
  bound : ∀ name, name ∈ Entity.names last.bound ↔
    name ∈ graph.names ∧ ∀ rank, ¬ graph.HasRank config name rank
  length : last.stats.iterations = rounds.length
  /-- There is an iteration for each rank, and one more if something stays bound. -/
  iterations : ∃ top, graph.IsTopRank config top ∧
    last.stats.iterations = top + if last.bound.isEmpty then 0 else 1

/-! ## Free and bound names -/

theorem Kept.mem_bound_iff (h : Kept graph rounds resolver) (hnodup : graph.names.Nodup) :
    name ∈ Entity.names resolver.bound ↔
      name ∈ graph.names ∧ name ∉ Entity.names resolver.free := by
  have hall := h.perm.nodup_iff.2 hnodup
  have hmem := h.perm.mem_iff (a := name)
  rw [Entity.names_append] at hall hmem
  rw [List.mem_append] at hmem
  constructor
  · intro hbound
    exact ⟨hmem.1 (Or.inr hbound), fun hfree => List.disjoint_of_nodup_append hall hfree hbound⟩
  · rintro ⟨hname, hfree⟩
    exact (hmem.2 hname).resolve_left hfree

/-- What is bound was declared, and not free by its shape. -/
theorem Kept.exists_declared (h : Kept graph rounds resolver) (hnodup : graph.names.Nodup)
    (hname : name ∈ Entity.names resolver.bound) :
    ∃ entity ∈ graph.entities, entity.fullName = name ∧ entity.isFree = false := by
  obtain ⟨hdeclared, hfree⟩ := (h.mem_bound_iff hnodup).1 hname
  obtain ⟨entity, hentity, rfl⟩ := List.mem_map.1 hdeclared
  refine ⟨entity, hentity, rfl, eq_false_of_ne_true fun hshape => hfree ?_⟩
  rw [h.free_order]
  exact List.mem_append_left _ (Entity.fullName_mem_names (List.mem_filter.2 ⟨hentity, hshape⟩))

theorem dependsOn_iff (hnodup : graph.names.Nodup) {entity : Entity}
    (hentity : entity ∈ graph.entities) : graph.DependsOn config entity.fullName name ↔
      name ∈ entity.reference.uses config := by
  constructor
  · rintro ⟨other, hother, hname, huses⟩
    obtain rfl := List.inj_on_of_nodup_map hnodup hother hentity hname
    exact huses
  · exact fun huses => ⟨entity, hentity, rfl, huses⟩

theorem names_free_step (h : resolver.step = (next, .ok n)) :
    Entity.names next.free = Entity.names resolver.free ++ resolver.promotedNames := by
  rw [free_step h, Entity.names_append]
  rfl

/-- Sweeps keep to the declared dependencies if each pass notes exactly those that are not free. -/
theorem schedules_of_noted
    (hstep : ∀ {resolver next n}, Inv resolver → resolver.step = (next, .ok n) → Inv next)
    (hnoted : ∀ {resolver}, Inv resolver → ∀ pending ∈ resolver.waiting, ∃ value outcome,
      resolver.surroundings.apply pending.entity.fullName pending.entity.reference =
        .ok (value, outcome) ∧
      ∀ other, other ∈ outcome.unresolved ↔
        graph.DependsOn config pending.name other ∧ other ∉ Entity.names resolver.free) :
    Schedules config graph Inv := by
  refine ⟨fun h pending hpending => ?passes, hstep, fun {resolver} h name => ?promotes⟩
  case passes =>
    obtain ⟨value, outcome, happly, -⟩ := hnoted h pending hpending
    exact ⟨value, outcome, happly⟩
  case promotes =>
    have hresolved : ∀ {pending value outcome}, pending ∈ resolver.waiting →
        resolver.surroundings.apply pending.entity.fullName pending.entity.reference =
          .ok (value, outcome) →
        (outcome.isResolved = true ↔ ∀ other, graph.DependsOn config pending.name other →
          other ∈ Entity.names resolver.free) := by
      intro pending value outcome hpending happly
      obtain ⟨_, _, hother, hunresolved⟩ := hnoted h pending hpending
      obtain ⟨rfl, rfl⟩ := Prod.mk.inj (Except.ok.inj (happly.symm.trans hother))
      simp only [Outcome.isResolved_iff, List.eq_nil_iff_forall_not_mem, hunresolved, not_and,
        not_not]
    rw [mem_promotedNames, names_bound, List.mem_map]
    constructor
    · rintro ⟨pending, hpending, rfl, value, outcome, happly, h⟩
      exact ⟨⟨pending, hpending, rfl⟩, (hresolved hpending happly).1 h⟩
    · rintro ⟨⟨pending, hpending, rfl⟩, hfree⟩
      obtain ⟨value, outcome, happly, -⟩ := hnoted h pending hpending
      exact ⟨pending, hpending, rfl, value, outcome, happly, (hresolved hpending happly).2 hfree⟩

/-! ## Steps -/

theorem onSchedule_start (h : graph.partition = .ok partition) :
    OnSchedule config graph (start config catalog partition) [] (start config catalog partition) := by
  refine ⟨.refl, kept_start h config catalog, fun name => ?_, by simp⟩
  rw [List.length_nil, ModuleGraph.isWithin_zero_iff, ← (ModuleGraph.partition_eq_ok h).2.2.1]
  rfl

/-- The names that the next sweep promotes are those of the next rank. -/
private theorem OnSchedule.mem_free_or_promoted (h : OnSchedule config graph first rounds resolver)
    (hschedules : Schedules config graph Inv) (hinv : Inv resolver) (hnodup : graph.names.Nodup) :
    name ∈ Entity.names resolver.free ++ resolver.promotedNames ↔
      graph.IsWithin config (rounds.length + 1) name := by
  rw [List.mem_append]
  constructor
  · rintro (hfree | hpromoted)
    · exact ((h.free name).1 hfree).mono (Nat.le_succ _)
    · obtain ⟨hbound, hdepends⟩ := (hschedules.promotes hinv name).1 hpromoted
      obtain ⟨entity, hentity, rfl, hshape⟩ := h.kept.exists_declared hnodup hbound
      refine (ModuleGraph.isWithin_succ_iff hnodup hentity hshape).2 fun other hother => ?_
      exact (h.free other).1 (hdepends other ((dependsOn_iff hnodup hentity).2 hother))
  · intro hwithin
    by_cases hfree : name ∈ Entity.names resolver.free
    · exact Or.inl hfree
    · have hbound := (h.kept.mem_bound_iff hnodup).2 ⟨hwithin.mem_names, hfree⟩
      refine Or.inr ((hschedules.promotes hinv name).2 ⟨hbound, fun other hother => ?_⟩)
      obtain ⟨entity, hentity, rfl, hshape⟩ := h.kept.exists_declared hnodup hbound
      exact (h.free other).2 ((ModuleGraph.isWithin_succ_iff hnodup hentity hshape).1 hwithin other
        ((dependsOn_iff hnodup hentity).1 hother))

theorem OnSchedule.step (h : OnSchedule config graph first rounds resolver)
    (hschedules : Schedules config graph Inv) (hinv : Inv resolver) (hnodup : graph.names.Nodup)
    (hstep : resolver.step = (next, .ok n)) :
    OnSchedule config graph first (rounds ++ [resolver.promotedNames]) next := by
  have hmem : ∀ name, name ∈ Entity.names resolver.free ++ resolver.promotedNames ↔
      graph.IsWithin config (rounds.length + 1) name :=
    fun _ => h.mem_free_or_promoted hschedules hinv hnodup
  refine ⟨h.iterated.promote hstep (free_step hstep), h.kept.promote hstep (free_step hstep),
    ?free, ?promoted⟩
  case free =>
    intro name
    rw [names_free_step hstep, hmem, List.length_append, List.length_singleton]
  case promoted =>
    intro i name
    rcases Nat.lt_trichotomy i rounds.length with hi | rfl | hi
    · have hlt : i < (rounds ++ [resolver.promotedNames]).length := by
        rw [List.length_append]
        omega
      rw [List.getD_append _ _ _ _ hi, h.promoted]
      simp only [hi, hlt]
    · -- What comes in is within the next rank and was not within the last.
      have hlast : (rounds ++ [resolver.promotedNames]).getD rounds.length [] =
          resolver.promotedNames := by simp
      rw [hlast, ModuleGraph.hasRank_succ_iff hnodup, ← hmem, ← h.free, List.mem_append]
      have hdisjoint : name ∈ resolver.promotedNames → name ∉ Entity.names resolver.free :=
        fun hpromoted => ((h.kept.mem_bound_iff hnodup).1
          ((hschedules.promotes hinv name).1 hpromoted).1).2
      constructor
      · intro hpromoted
        exact ⟨by simp, Or.inr hpromoted, hdisjoint hpromoted⟩
      · rintro ⟨-, hfree | hpromoted, hnot⟩
        · exact absurd hfree hnot
        · exact hpromoted
    · have hge : (rounds ++ [resolver.promotedNames]).length ≤ i := by
        rw [List.length_append, List.length_singleton]
        omega
      rw [List.getD_eq_default _ _ hge, iff_false_left (List.not_mem_nil)]
      omega

/-! ## Runs -/

/-- A state in which all ranks have been reached, and the largest by some iteration. -/
private theorem OnSchedule.followsRanks (h : OnSchedule config graph first rounds resolver)
    (hnodup : graph.names.Nodup) {top : Nat} (htop : graph.IsTopRank config top)
    (hiterations : rounds.length = top + if resolver.bound.isEmpty then 0 else 1) :
    FollowsRanks config graph rounds resolver := by
  have hle : top ≤ rounds.length := hiterations ▸ Nat.le_add_right _ _
  refine ⟨fun i name => ?_, fun name => ?_, h.kept.iterations, top, htop,
    h.kept.iterations.trans hiterations⟩
  · rw [h.promoted, and_iff_right_iff_imp]
    intro hrank
    have := htop.le hrank
    omega
  · rw [h.kept.mem_bound_iff hnodup, h.free]
    refine and_congr_right fun _ => ⟨fun hnot rank hrank => ?_, ?_⟩
    · exact hnot ⟨rank, (htop.le hrank).trans hle, hrank⟩
    · rintro hnone ⟨rank, -, hrank⟩
      exact hnone rank hrank

theorem OnSchedule.settle (h : OnSchedule config graph first rounds resolver) :
    OnSchedule config graph first rounds { resolver with settled := true } :=
  ⟨h.iterated.settle, ⟨h.kept.name, h.kept.order, h.kept.perm, h.kept.declared, h.kept.bound_order,
    h.kept.free_order, h.kept.round_order, h.kept.iterations, h.kept.count⟩, h.free, h.promoted⟩

/-- A run whose sweeps keep to the declared dependencies follows the ranks. -/
theorem Schedules.run (hschedules : Schedules config graph Inv) (hnodup : graph.names.Nodup)
    (h : graph.partition = .ok partition) (hstart : Inv (start config catalog partition)) :
    (start config catalog partition).run.2 = none ∧
      ∃ rounds, Iterated (start config catalog partition) rounds
          (start config catalog partition).run.1 ∧
        FollowsRanks config graph rounds (start config catalog partition).run.1 := by
  refine run_induction (P := fun resolver ended => ∀ rounds, Inv resolver →
    OnSchedule config graph (start config catalog partition) rounds resolver →
    (rounds.length = 0 ∨ ∃ name, graph.HasRank config name rounds.length) →
    ended.2 = none ∧ ∃ rounds, Iterated (start config catalog partition) rounds ended.1 ∧
      FollowsRanks config graph rounds ended.1)
    ?done ?failed ?stalled ?promoted _ [] hstart (onSchedule_start h) (Or.inl rfl)
  case done =>
    intro resolver hempty rounds _ hon hattained
    have hbound : resolver.bound.isEmpty = true := by simpa [bound] using hempty
    -- Everything is free, so all ranks have been reached.
    have hall : ∀ {name n}, graph.HasRank config name n →
        graph.IsWithin config rounds.length name := by
      intro name n hrank
      by_contra hnot
      have hmem := (hon.kept.mem_bound_iff hnodup).2 ⟨hrank.mem_names, fun hfree =>
        hnot ((hon.free name).1 hfree)⟩
      simp [List.isEmpty_iff.1 hbound, Entity.names] at hmem
    refine ⟨rfl, rounds, hon.iterated.settle, hon.settle.followsRanks hnodup
      (ModuleGraph.isTopRank_of_isWithin hnodup hall hattained) ?_⟩
    rw [if_pos (show (bound { resolver with settled := true }).isEmpty = true from hbound)]
    rfl
  case failed =>
    intro resolver next e _ hstep rounds hinv
    rw [step_of_passes (hschedules.passes hinv)] at hstep
    simp at hstep
  case stalled =>
    intro resolver next hempty hstep rounds hinv hon hattained
    have hnext := hon.step hschedules hinv hnodup hstep
    have hpromoted : resolver.promotedNames = [] := by
      have hlength : resolver.promotions.length = 0 := ((step_eq_ok hstep).2.1).symm
      rw [promotedNames, List.length_eq_zero_iff.1 hlength]
      rfl
    -- The sweep has added nothing, so no rank is left.
    have hall : ∀ {name n}, graph.HasRank config name n →
        graph.IsWithin config rounds.length name := by
      intro name n hrank
      refine hrank.isWithin hnodup fun other hwithin => ?_
      rw [← hon.mem_free_or_promoted hschedules hinv hnodup, hpromoted, List.append_nil] at hwithin
      exact (hon.free other).1 hwithin
    have hbound : (bound { next with settled := true }).isEmpty = false := by
      have hlength := length_waiting_of_step hstep
      rw [List.isEmpty_eq_false_iff, ← List.length_pos_iff] at hempty ⊢
      simp only [bound, List.length_map]
      omega
    refine ⟨rfl, _, hnext.iterated.settle, hnext.settle.followsRanks hnodup
      (ModuleGraph.isTopRank_of_isWithin hnodup hall hattained) ?_⟩
    rw [hbound, List.length_append, List.length_singleton]
    rfl
  case promoted =>
    intro resolver next n _ hstep hn ih rounds hinv hon _
    have hnext := hon.step hschedules hinv hnodup hstep
    refine ih _ (hschedules.step hinv hstep) hnext (Or.inr ?_)
    -- Something was promoted, and it has the rank of the iteration.
    have hlength : resolver.promotedNames.length = n := by
      rw [promotedNames, Entity.length_names, List.length_map, ← (step_eq_ok hstep).2.1]
    obtain ⟨name, hname⟩ := List.exists_mem_of_length_pos (by omega : 0 < resolver.promotedNames.length)
    have hrank := (hnext.promoted rounds.length name).1 (by simpa using hname)
    exact ⟨name, by simpa using hrank.2⟩

end StackLinker.Resolver
