import StackLinker.FailureReport
import StackLinker.Proofs.Module.Lookup

/-!
# Sweeps and runs

What one sweep and a whole run of the resolver do, stated once for all later arguments.

* A sweep that meets no structural error sorts the bound entities into those that keep waiting
  (`keeps?`) and those that are promoted (`promotes?`), both in their order (`sweep_of_passes`).
  A sweep that meets one has only rewritten entities in front of the faulty one (`sweep_failed`).
* `step_eq_ok` and `step_eq_error` say the same of the state of the resolver.
* `run_invariant` carries an invariant of the steps to the state in which a run ends, and
  `run_complete` bounds a run in which every step promotes something.
* `resolve_eq_ok` takes a whole resolution apart.
-/

namespace StackLinker

namespace Entity

/-- The entity with another reference. -/
def withReference (entity : Entity) (value : Value) : Entity := { entity with reference := value }

@[simp] theorem fullName_withReference (entity : Entity) (value : Value) :
    (entity.withReference value).fullName = entity.fullName := rfl

@[simp] theorem definition_withReference (entity : Entity) (value : Value) :
    (entity.withReference value).definition = entity.definition := rfl

@[simp] theorem reference_withReference (entity : Entity) (value : Value) :
    (entity.withReference value).reference = value := rfl

@[simp] theorem withReference_withReference (entity : Entity) (value other : Value) :
    (entity.withReference value).withReference other = entity.withReference other := rfl

end Entity

namespace Surroundings

variable {around : Surroundings} {waiting : List Pending} {pending : Pending}

/-- Whether the pass over the reference of a bound entity reaches its end. -/
def Passes (around : Surroundings) (pending : Pending) : Prop :=
  ∃ value outcome,
    around.apply pending.entity.fullName pending.entity.reference = .ok (value, outcome)

/-- The bound entity after a sweep, if it keeps waiting. -/
def keeps? (around : Surroundings) (pending : Pending) : Option Pending :=
  match around.apply pending.entity.fullName pending.entity.reference with
  | .error _ => none
  | .ok (value, outcome) =>
    if outcome.isResolved then none
    else some ⟨pending.entity.withReference value, some outcome⟩

/-- The entity after a sweep with the faults of its reference, if it is promoted. -/
def promotes? (around : Surroundings) (pending : Pending) : Option (Entity × List Diagnostic) :=
  match around.apply pending.entity.fullName pending.entity.reference with
  | .error _ => none
  | .ok (value, outcome) =>
    if outcome.isResolved then some (pending.entity.withReference value, outcome.invalid)
    else none

theorem keeps?_eq_some {kept : Pending} (h : around.keeps? pending = some kept) :
    ∃ value outcome, around.apply pending.entity.fullName pending.entity.reference =
        .ok (value, outcome) ∧
      outcome.isResolved = false ∧ kept = ⟨pending.entity.withReference value, some outcome⟩ := by
  unfold keeps? at h
  split at h
  · simp at h
  · rename_i value outcome happly
    split at h
    · simp at h
    · rename_i hresolved
      exact ⟨value, outcome, happly, by simpa using hresolved, (Option.some.inj h).symm⟩

theorem promotes?_eq_some {promoted : Entity × List Diagnostic}
    (h : around.promotes? pending = some promoted) :
    ∃ value outcome, around.apply pending.entity.fullName pending.entity.reference =
        .ok (value, outcome) ∧
      outcome.isResolved = true ∧
      promoted = (pending.entity.withReference value, outcome.invalid) := by
  unfold promotes? at h
  split at h
  · simp at h
  · rename_i value outcome happly
    split at h
    · rename_i hresolved
      exact ⟨value, outcome, happly, hresolved, (Option.some.inj h).symm⟩
    · simp at h

/-- A sweep in which every pass reaches its end. -/
theorem sweep_of_passes (h : ∀ pending ∈ waiting, around.Passes pending) :
    around.sweep waiting =
      ⟨waiting.filterMap around.keeps?, waiting.filterMap around.promotes?, none⟩ := by
  induction waiting with
  | nil => rfl
  | cons pending rest ih =>
      obtain ⟨value, outcome, happly⟩ := h pending List.mem_cons_self
      have hrest := ih fun other hother => h other (List.mem_cons_of_mem _ hother)
      cases hresolved : outcome.isResolved <;>
        simp [sweep, keeps?, promotes?, happly, hrest, hresolved, Entity.withReference]

/-- A sweep that meets a structural error stops at the faulty entity and promotes nothing. -/
theorem sweep_of_error {before after : List Pending} {e : StructuralError}
    (hbefore : ∀ other ∈ before, around.Passes other)
    (herror : around.apply pending.entity.fullName pending.entity.reference = .error e) :
    around.sweep (before ++ pending :: after) =
      ⟨before.map (fun other => (around.keeps? other).getD other) ++ pending :: after, [],
        some e⟩ := by
  induction before with
  | nil => simp [sweep, herror]
  | cons first rest ih =>
      obtain ⟨value, outcome, happly⟩ := hbefore first List.mem_cons_self
      have hrest := ih fun other hother => hbefore other (List.mem_cons_of_mem _ hother)
      cases hresolved : outcome.isResolved <;>
        simp [sweep, keeps?, happly, hrest, hresolved, Entity.withReference]

/-- Either every pass of a sweep reaches its end, or there is a first one that does not. -/
theorem passes_or_error (around : Surroundings) (waiting : List Pending) :
    (∀ pending ∈ waiting, around.Passes pending) ∨
      ∃ before pending after e, waiting = before ++ pending :: after ∧
        (∀ other ∈ before, around.Passes other) ∧
        around.apply pending.entity.fullName pending.entity.reference = .error e := by
  induction waiting with
  | nil => exact Or.inl (by simp)
  | cons first rest ih =>
      rcases happly : around.apply first.entity.fullName first.entity.reference with e | ⟨v, o⟩
      · exact Or.inr ⟨[], first, rest, e, rfl, by simp, happly⟩
      · have hfirst : around.Passes first := ⟨v, o, happly⟩
        rcases ih with hall | ⟨before, pending, after, e, rfl, hbefore, herror⟩
        · exact Or.inl (List.forall_mem_cons.2 ⟨hfirst, hall⟩)
        · exact Or.inr ⟨first :: before, pending, after, e, rfl,
            List.forall_mem_cons.2 ⟨hfirst, hbefore⟩, herror⟩

end Surroundings

namespace Resolver

variable {resolver next last : Resolver} {n : Nat} {e : StructuralError}

/-- The entities that the next sweep promotes, each with the faults of its reference. -/
def promotions (resolver : Resolver) : List (Entity × List Diagnostic) :=
  resolver.waiting.filterMap resolver.surroundings.promotes?

/-- The entities that keep waiting after the next sweep. -/
def remaining (resolver : Resolver) : List Pending :=
  resolver.waiting.filterMap resolver.surroundings.keeps?

theorem step_of_passes
    (h : ∀ pending ∈ resolver.waiting, resolver.surroundings.Passes pending) :
    resolver.step =
      ({ resolver with
          free := resolver.free ++ resolver.promotions.map (·.1)
          waiting := resolver.remaining
          diagnostics := resolver.diagnostics ++ resolver.promotions.flatMap (·.2)
          stats := { resolver.stats with
            iterations := resolver.stats.iterations + 1
            promoted := resolver.stats.promoted + resolver.promotions.length }
          settled := resolver.settled || resolver.promotions.length == 0 ||
            resolver.remaining.isEmpty },
        .ok resolver.promotions.length) := by
  rw [step, Surroundings.sweep_of_passes h]
  rfl

/-- What a step that ends without a structural error has done. -/
theorem step_eq_ok (h : resolver.step = (next, .ok n)) :
    (∀ pending ∈ resolver.waiting, resolver.surroundings.Passes pending) ∧
      n = resolver.promotions.length ∧
      next = { resolver with
        free := resolver.free ++ resolver.promotions.map (·.1)
        waiting := resolver.remaining
        diagnostics := resolver.diagnostics ++ resolver.promotions.flatMap (·.2)
        stats := { resolver.stats with
          iterations := resolver.stats.iterations + 1
          promoted := resolver.stats.promoted + resolver.promotions.length }
        settled := resolver.settled || resolver.promotions.length == 0 ||
          resolver.remaining.isEmpty } := by
  rcases resolver.surroundings.passes_or_error resolver.waiting with
    hall | ⟨before, pending, after, e, hwaiting, hbefore, herror⟩
  · rw [step_of_passes hall] at h
    simp only [Prod.mk.injEq, Except.ok.injEq] at h
    exact ⟨hall, h.2.symm, h.1.symm⟩
  · rw [step, hwaiting, Surroundings.sweep_of_error hbefore herror] at h
    simp [absorb] at h

theorem free_step (h : resolver.step = (next, .ok n)) :
    next.free = resolver.free ++ resolver.promotions.map (·.1) := by
  rw [(step_eq_ok h).2.2]

/-- An entity that is free after a step was free, or the sweep has promoted it. -/
theorem of_mem_free_step (h : resolver.step = (next, .ok n)) {entity : Entity}
    (hentity : entity ∈ next.free) : entity ∈ resolver.free ∨
      ∃ pending ∈ resolver.waiting, ∃ value outcome,
        resolver.surroundings.apply pending.entity.fullName pending.entity.reference =
          .ok (value, outcome) ∧
        outcome.isResolved = true ∧ entity = pending.entity.withReference value := by
  rw [free_step h] at hentity
  refine (List.mem_append.1 hentity).imp_right fun hpromoted => ?_
  obtain ⟨promoted, hmem, rfl⟩ := List.mem_map.1 hpromoted
  obtain ⟨pending, hpending, hsome⟩ := List.mem_filterMap.1 hmem
  obtain ⟨value, outcome, happly, hresolved, rfl⟩ := Surroundings.promotes?_eq_some hsome
  exact ⟨pending, hpending, value, outcome, happly, hresolved, rfl⟩

/-- An entity that is bound after a step has kept waiting. -/
theorem of_mem_waiting_step (h : resolver.step = (next, .ok n)) {kept : Pending}
    (hkept : kept ∈ next.waiting) : ∃ pending ∈ resolver.waiting, ∃ value outcome,
      resolver.surroundings.apply pending.entity.fullName pending.entity.reference =
        .ok (value, outcome) ∧
      outcome.isResolved = false ∧ kept = ⟨pending.entity.withReference value, some outcome⟩ := by
  rw [(step_eq_ok h).2.2] at hkept
  obtain ⟨pending, hpending, hsome⟩ := List.mem_filterMap.1 hkept
  exact ⟨pending, hpending, Surroundings.keeps?_eq_some hsome⟩

/-- The faults of a promoted entity are on record after the step. -/
theorem invalid_subset_diagnostics_step (h : resolver.step = (next, .ok n)) {pending : Pending}
    (hpending : pending ∈ resolver.waiting) {value : Value} {outcome : Outcome}
    (happly : resolver.surroundings.apply pending.entity.fullName pending.entity.reference =
      .ok (value, outcome)) (hresolved : outcome.isResolved = true) :
    outcome.invalid ⊆ next.diagnostics := by
  have hpromotes : resolver.surroundings.promotes? pending =
      some (pending.entity.withReference value, outcome.invalid) := by
    simp [Surroundings.promotes?, happly, hresolved]
  have hmem : (pending.entity.withReference value, outcome.invalid) ∈ resolver.promotions :=
    List.mem_filterMap.2 ⟨pending, hpending, hpromotes⟩
  rw [(step_eq_ok h).2.2]
  intro fault hfault
  exact List.mem_append_right _ (List.mem_flatMap.2 ⟨_, hmem, hfault⟩)

/-- Faults stay on record. -/
theorem diagnostics_prefix_step (h : resolver.step = (next, .ok n)) :
    resolver.diagnostics <+: next.diagnostics := by
  rw [(step_eq_ok h).2.2]
  exact List.prefix_append _ _

/-- A step that meets a structural error leaves the faulty entity and those behind it alone. -/
theorem step_of_error {before after : List Pending} {pending : Pending}
    (hwaiting : resolver.waiting = before ++ pending :: after)
    (hbefore : ∀ other ∈ before, resolver.surroundings.Passes other)
    (herror : resolver.surroundings.apply pending.entity.fullName pending.entity.reference =
      .error e) :
    resolver.step =
      ({ resolver with
          waiting := before.map
            (fun other => (resolver.surroundings.keeps? other).getD other) ++ pending :: after },
        .error e) := by
  rw [step, hwaiting, Surroundings.sweep_of_error hbefore herror]
  rfl

/-- What a step that meets a structural error has done. -/
theorem step_eq_error (h : resolver.step = (next, .error e)) :
    ∃ before after, resolver.waiting = before ++ after ∧
      next = { resolver with
        waiting := before.map
          (fun other => (resolver.surroundings.keeps? other).getD other) ++ after } := by
  rcases resolver.surroundings.passes_or_error resolver.waiting with
    hall | ⟨before, pending, after, e', hwaiting, hbefore, herror⟩
  · rw [step_of_passes hall] at h
    simp at h
  · rw [step_of_error hwaiting hbefore herror] at h
    exact ⟨before, pending :: after, hwaiting, (Prod.mk.inj h).1.symm⟩

theorem length_waiting_of_step (h : resolver.step = (next, .ok n)) :
    next.waiting.length + n = resolver.waiting.length := by
  have hlength := @length_waiting_step resolver n (by rw [h])
  rwa [h] at hlength

/-! ## Runs -/

theorem run_of_isEmpty (h : resolver.waiting.isEmpty = true) :
    resolver.run = ({ resolver with settled := true }, none) := by
  rw [run, if_pos h]

theorem run_of_error (h : resolver.waiting.isEmpty = false)
    (hstep : resolver.step = (next, .error e)) : resolver.run = (next, some e) := by
  rw [run, if_neg (by simp [h])]
  split
  · rename_i hother
    simp_all
  · rename_i hother
    simp_all

theorem run_of_ok (h : resolver.waiting.isEmpty = false)
    (hstep : resolver.step = (next, .ok n)) :
    resolver.run = if n = 0 then ({ next with settled := true }, none) else next.run := by
  rw [run, if_neg (by simp [h])]
  split
  · rename_i hother
    simp_all
  · rename_i hother
    simp only [hstep, Prod.mk.injEq, Except.ok.injEq] at hother
    obtain ⟨rfl, rfl⟩ := hother
    rfl

/-- Induction along a run: it ends at once, with a structural error, with a step that promotes
nothing, or goes on after a step that promotes something. -/
theorem run_induction {P : Resolver → Resolver × Option StructuralError → Prop}
    (done : ∀ resolver, resolver.waiting.isEmpty = true →
      P resolver ({ resolver with settled := true }, none))
    (failed : ∀ resolver next e, resolver.waiting.isEmpty = false →
      resolver.step = (next, .error e) → P resolver (next, some e))
    (stalled : ∀ resolver next, resolver.waiting.isEmpty = false →
      resolver.step = (next, .ok 0) → P resolver ({ next with settled := true }, none))
    (promoted : ∀ resolver next n, resolver.waiting.isEmpty = false →
      resolver.step = (next, .ok n) → n ≠ 0 → P next next.run → P resolver next.run)
    (resolver : Resolver) : P resolver resolver.run := by
  by_cases hempty : resolver.waiting.isEmpty = true
  · rw [run_of_isEmpty hempty]
    exact done resolver hempty
  · rw [Bool.not_eq_true] at hempty
    rcases hstep : resolver.step with ⟨next, e | n⟩
    · rw [run_of_error hempty hstep]
      exact failed resolver next e hempty hstep
    · rw [run_of_ok hempty hstep]
      by_cases hn : n = 0
      · subst hn
        exact stalled resolver next hempty hstep
      · rw [if_neg hn]
        -- Fewer entities are bound after a step that promotes something.
        have hlt : next.waiting.length < resolver.waiting.length := by
          have hlength := length_waiting_of_step hstep
          omega
        exact promoted resolver next n hempty hstep hn
          (run_induction done failed stalled promoted next)
termination_by resolver.waiting.length

/-- An invariant of the steps holds where a run ends, and a run that leaves entities bound ends
with a step that promotes nothing. -/
theorem run_invariant {Inv : Resolver → Prop}
    (hstep : ∀ {resolver next n}, Inv resolver → resolver.step = (next, .ok n) → Inv next)
    (hstart : Inv resolver) (hrun : resolver.run = (last, none)) :
    ∃ final, Inv final ∧ last = { final with settled := true } ∧
      (final.waiting = [] ∨ ∃ before, Inv before ∧ before.step = (final, .ok 0)) := by
  suffices h : Inv resolver → resolver.run.2 = none → ∃ final, Inv final ∧
      resolver.run.1 = { final with settled := true } ∧
      (final.waiting = [] ∨ ∃ before, Inv before ∧ before.step = (final, .ok 0)) by
    simpa only [hrun] using h hstart (by rw [hrun])
  refine run_induction (P := fun first ended => Inv first → ended.2 = none → ∃ final, Inv final ∧
    ended.1 = { final with settled := true } ∧
    (final.waiting = [] ∨ ∃ before, Inv before ∧ before.step = (final, .ok 0)))
    ?done ?failed ?stalled ?promoted resolver
  case done =>
    intro first hempty hinv _
    exact ⟨first, hinv, rfl, Or.inl (List.isEmpty_iff.1 hempty)⟩
  case failed =>
    intro first next e _ _ _ hnone
    simp at hnone
  case stalled =>
    intro first next _ h hinv _
    exact ⟨next, hstep hinv h, rfl, Or.inr ⟨first, hinv, h⟩⟩
  case promoted =>
    intro first next n _ h _ ih hinv hnone
    exact ih (hstep hinv h) hnone

/-- If every step from a state with bound entities promotes something, a run leaves nothing bound
and needs no more iterations than there are bound entities. -/
theorem run_complete {P : Resolver → Prop}
    (hstep : ∀ {resolver}, P resolver → resolver.waiting ≠ [] →
      ∃ next n, resolver.step = (next, .ok n) ∧ n ≠ 0 ∧ P next)
    (hstart : P resolver) :
    resolver.run.2 = none ∧ resolver.run.1.waiting = [] ∧
      resolver.run.1.stats.iterations ≤ resolver.stats.iterations + resolver.waiting.length := by
  refine run_induction (P := fun first ended => P first → ended.2 = none ∧
    ended.1.waiting = [] ∧
    ended.1.stats.iterations ≤ first.stats.iterations + first.waiting.length)
    ?done ?failed ?stalled ?promoted resolver hstart
  case done =>
    intro first hempty _
    exact ⟨rfl, List.isEmpty_iff.1 hempty, Nat.le_add_right _ _⟩
  case failed =>
    -- A step from such a state meets no structural error.
    intro first next e hempty h hinv
    obtain ⟨other, n, hother, -, -⟩ := hstep hinv (by simpa using hempty)
    simp [h] at hother
  case stalled =>
    intro first next hempty h hinv
    obtain ⟨other, n, hother, hn, -⟩ := hstep hinv (by simpa using hempty)
    simp only [h, Prod.mk.injEq, Except.ok.injEq] at hother
    exact absurd hother.2.symm hn
  case promoted =>
    intro first next n hempty h hn ih hinv
    obtain ⟨other, m, hother, -, hnext⟩ := hstep hinv (by simpa using hempty)
    simp only [h, Prod.mk.injEq] at hother
    obtain ⟨hnone, hwaiting, hiterations⟩ := ih (hother.1 ▸ hnext)
    have hlength := length_waiting_of_step h
    have hcount : next.stats.iterations = first.stats.iterations + 1 := by
      rw [(step_eq_ok h).2.2]
    exact ⟨hnone, hwaiting, by omega⟩

/-- A run meets no structural error if no sweep on the way does. -/
theorem run_of_passes {Inv : Resolver → Prop}
    (hpasses : ∀ {resolver}, Inv resolver →
      ∀ pending ∈ resolver.waiting, resolver.surroundings.Passes pending)
    (hstep : ∀ {resolver next n}, Inv resolver → resolver.step = (next, .ok n) → Inv next)
    (hstart : Inv resolver) : resolver.run.2 = none := by
  refine run_induction (P := fun first ended => Inv first → ended.2 = none) (fun _ _ _ => rfl)
    ?failed (fun _ _ _ _ _ => rfl) ?promoted resolver hstart
  case failed =>
    intro first next e _ h hinv
    rw [step_of_passes (hpasses hinv)] at h
    simp at h
  case promoted =>
    intro first next n _ h _ ih hinv
    exact ih (hstep hinv h)

/-! ## Resolutions -/

theorem settled_run (h : resolver.run.2 = none) : resolver.run.1.settled = true := by
  refine run_induction (P := fun _ ended => ended.2 = none → ended.1.settled = true)
    (fun _ _ _ => rfl) ?failed (fun _ _ _ _ _ => rfl) ?promoted resolver h
  case failed =>
    intro _ _ _ _ _ hnone
    simp at hnone
  case promoted =>
    intro _ _ _ _ _ _ ih
    exact ih

/-- Behind a run without structural errors, resolution concludes in the last state. -/
theorem resolve_of_run {config : Config} {catalog : Catalog} {partition : Partition}
    (hrun : (start config catalog partition).run = (last, none)) :
    resolve config catalog partition = last.conclude := by
  have hsettled : last.settled = true := by
    have := @settled_run (start config catalog partition) (by rw [hrun])
    rwa [hrun] at this
  simp [resolve, hrun, finish, hsettled]

/-- A resolution that succeeds is a run without structural errors whose last state concludes. -/
theorem resolve_eq_ok {config : Config} {catalog : Catalog} {partition : Partition}
    {result : ModuleGraph × Stats} (h : resolve config catalog partition = .ok result) :
    ∃ last, (start config catalog partition).run = (last, none) ∧ last.conclude = .ok result := by
  rcases hrun : (start config catalog partition).run with ⟨last, e | e⟩
  · exact ⟨last, rfl, (resolve_of_run hrun).symm.trans h⟩
  · simp [resolve, hrun] at h

end Resolver

end StackLinker
