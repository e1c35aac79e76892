import StackLinker.Proofs.Resolution.Report

/-!
# Failing steps

A step that meets a structural error answers with it and leaves a state behind.  In that state the
references in front of the faulty one are rewritten, and what the pass found in them is on record.
None of this lets a later call get any further: nothing is promoted any more, every step fails, and
finishing fails, too (`heldUp_of_step_error`).

## Strategy

* A step fails if and only if the pass over some bound reference does (`step_error_iff`).
* A failing step changes only what waits (`Rewritten`), and of this neither the names nor the faulty
  entity.  So the next pass sees the same, and fails at the same entity (`Rewritten.isFaulty`).
* A resolver that had settled before does not run again when it is finished.  Then all bound
  entities are known to be stuck (`Accounted`), and there is something to report.
-/

namespace StackLinker

namespace Resolver

variable {config : Config} {catalog : Catalog} {partition : Partition}
  {resolver next last : Resolver} {n : Nat} {e : StructuralError}

/-! ## Faulty entities -/

/-- Whether the pass over the reference of some bound entity meets a structural error. -/
def IsFaulty (resolver : Resolver) : Prop :=
  ∃ pending ∈ resolver.waiting, ∃ e,
    resolver.surroundings.apply pending.entity.fullName pending.entity.reference = .error e

theorem IsFaulty.waiting_ne_nil (h : resolver.IsFaulty) : resolver.waiting ≠ [] := by
  obtain ⟨pending, hpending, -⟩ := h
  exact List.ne_nil_of_mem hpending

/-- A step fails if and only if some bound entity is faulty. -/
theorem step_error_iff : (∃ e, resolver.step.2 = .error e) ↔ resolver.IsFaulty := by
  constructor
  · rintro ⟨e, he⟩
    rcases resolver.surroundings.passes_or_error resolver.waiting with
      hall | ⟨before, pending, after, e', hwaiting, -, herror⟩
    · rw [step_of_passes hall] at he
      simp at he
    · exact ⟨pending, by simp [hwaiting], e', herror⟩
  · rintro ⟨pending, hpending, e, herror⟩
    rcases hstep : resolver.step with ⟨next, e' | n⟩
    · exact ⟨e', rfl⟩
    · obtain ⟨value, outcome, happly⟩ := (step_eq_ok hstep).1 pending hpending
      simp [happly] at herror

theorem IsFaulty.step_eq (h : resolver.IsFaulty) :
    ∃ e, resolver.step = (resolver.step.1, .error e) := by
  obtain ⟨e, he⟩ := step_error_iff.2 h
  exact ⟨e, Prod.ext rfl he⟩

/-- A run from a faulty state fails with its first step. -/
theorem IsFaulty.run_eq (h : resolver.IsFaulty) :
    ∃ e, resolver.run = (resolver.step.1, some e) := by
  obtain ⟨e, hstep⟩ := h.step_eq
  exact ⟨e, run_of_error (by simpa using h.waiting_ne_nil) hstep⟩

/-! ## What a failing step leaves -/

/-- Whether a state differs from another one at most in the references of its bound entities and in
what is recorded of them. -/
structure Rewritten (resolver next : Resolver) : Prop where
  rest : next = { resolver with waiting := next.waiting }
  references : List.Forall₂ (fun old new : Entity => ∃ value, new = old.withReference value)
    resolver.bound next.bound

theorem Rewritten.refl (resolver : Resolver) : Rewritten resolver resolver :=
  ⟨rfl, List.forall₂_same.2 fun entity _ => ⟨entity.reference, rfl⟩⟩

theorem Rewritten.trans (first : Rewritten resolver next) (second : Rewritten next last) :
    Rewritten resolver last := by
  refine ⟨second.rest.trans ?_, ?_⟩
  · rw [first.rest]
  · refine (first.references.comp second.references).imp ?_
    rintro entity _ ⟨_, ⟨value, rfl⟩, ⟨other, rfl⟩⟩
    exact ⟨other, rfl⟩

theorem Rewritten.names (h : Rewritten resolver next) :
    Entity.names next.bound = Entity.names resolver.bound := by
  refine (h.references.map_eq_map ?_).symm
  rintro entity _ ⟨value, rfl⟩
  rfl

/-- A pass sees the same in both states. -/
theorem Rewritten.surroundings (h : Rewritten resolver next) :
    next.surroundings = resolver.surroundings := by
  have hnames : next.bound.map (·.fullName) = resolver.bound.map (·.fullName) := h.names
  rw [Resolver.surroundings, Resolver.surroundings, hnames, h.rest]

/-- The entity after a sweep that promotes nothing. -/
theorem entity_getD_keeps? (around : Surroundings) (pending : Pending) :
    ∃ value, ((around.keeps? pending).getD pending).entity =
      pending.entity.withReference value := by
  cases hkeeps : around.keeps? pending with
  | none => exact ⟨pending.entity.reference, rfl⟩
  | some kept =>
      obtain ⟨value, outcome, -, -, rfl⟩ := Surroundings.keeps?_eq_some hkeeps
      exact ⟨value, rfl⟩

/-- A failing step changes only references of bound entities, and the faulty one is still there. -/
theorem rewritten_of_step_error (h : resolver.step = (next, .error e)) :
    Rewritten resolver next ∧ next.IsFaulty := by
  rcases resolver.surroundings.passes_or_error resolver.waiting with
    hall | ⟨before, pending, after, e', hwaiting, hbefore, herror⟩
  · rw [step_of_passes hall] at h
    simp at h
  · rw [step_of_error hwaiting hbefore herror] at h
    obtain ⟨rfl, -⟩ := Prod.mk.inj h
    have hrewritten : Rewritten resolver { resolver with
        waiting := before.map (fun other => (resolver.surroundings.keeps? other).getD other) ++
          pending :: after } := by
      refine ⟨rfl, ?_⟩
      rw [bound, hwaiting, bound, List.map_append, List.map_append, List.map_map]
      refine List.rel_append ?_ (List.forall₂_same.2 fun entity _ => ⟨entity.reference, rfl⟩)
      rw [List.forall₂_map_left_iff, List.forall₂_map_right_iff]
      exact List.forall₂_same.2 fun other _ => entity_getD_keeps? _ other
    refine ⟨hrewritten, pending, by simp, e', ?_⟩
    rw [hrewritten.surroundings]
    exact herror

/-- From a faulty state every call fails, and leaves a faulty state. -/
theorem rewritten_perform (h : resolver.IsFaulty) (call : Call) :
    Rewritten resolver (resolver.perform call) ∧ (resolver.perform call).IsFaulty := by
  obtain ⟨e, hstep⟩ := h.step_eq
  cases call with
  | step => exact rewritten_of_step_error hstep
  | run =>
      obtain ⟨e', hrun⟩ := h.run_eq
      rw [perform, hrun]
      exact rewritten_of_step_error hstep

/-- From a faulty state no sequence of calls leads anywhere. -/
theorem rewritten_after (h : resolver.IsFaulty) (calls : List Call) :
    Rewritten resolver (resolver.after calls) ∧ (resolver.after calls).IsFaulty := by
  induction calls generalizing resolver with
  | nil => exact ⟨Rewritten.refl resolver, h⟩
  | cons call rest ih =>
      obtain ⟨hcall, hfaulty⟩ := rewritten_perform h call
      obtain ⟨hrest, hlast⟩ := ih hfaulty
      exact ⟨hcall.trans hrest, hlast⟩

/-! ## Settled states -/

/-- Whether the bound entities of a state that has settled are all stuck. -/
def Accounted (resolver : Resolver) : Prop :=
  resolver.settled = true → ∀ pending ∈ resolver.waiting, pending.IsStuck

/-- What a sweep has let wait is stuck, and what it has not reached is as before. -/
theorem Accounted.step (h : resolver.Accounted) : resolver.step.1.Accounted := by
  rcases hstep : resolver.step with ⟨next, e | n⟩
  · obtain ⟨before, after, hwaiting, rfl⟩ := step_eq_error hstep
    intro hsettled pending hpending
    have hold := h hsettled
    simp only [hwaiting, List.mem_append] at hold
    rcases List.mem_append.1 hpending with hmem | hmem
    · obtain ⟨other, hother, rfl⟩ := List.mem_map.1 hmem
      cases hkeeps : resolver.surroundings.keeps? other with
      | none => exact hold other (Or.inl hother)
      | some kept =>
          obtain ⟨value, outcome, -, hresolved, rfl⟩ := Surroundings.keeps?_eq_some hkeeps
          exact ⟨outcome, rfl, hresolved⟩
    · exact hold pending (Or.inr hmem)
  · exact fun _ => isStuck_of_step hstep

theorem Accounted.run (h : resolver.Accounted) : resolver.run.1.Accounted := by
  refine run_induction (P := fun first ended => first.Accounted → ended.1.Accounted)
    ?done ?failed ?stalled ?promoted resolver h
  case done =>
    intro first hempty _ _ pending hpending
    rw [show first.waiting = [] from List.isEmpty_iff.1 hempty] at hpending
    simp at hpending
  case failed =>
    intro first next e _ hstep h
    simpa [hstep] using h.step
  case stalled =>
    intro first next _ hstep _ _ pending hpending
    exact isStuck_of_step hstep pending hpending
  case promoted =>
    intro first next n _ hstep _ ih h
    exact ih (by simpa [hstep] using h.step)

theorem accounted_after (h : resolver.Accounted) (calls : List Call) :
    (resolver.after calls).Accounted := by
  induction calls generalizing resolver with
  | nil => exact h
  | cons call rest ih =>
      cases call with
      | step => exact ih h.step
      | run => exact ih h.run

/-- A faulty state cannot be finished: either its run fails, or there is something to report. -/
theorem exists_finish_error (haccounted : resolver.Accounted) (h : resolver.IsFaulty) :
    ∃ failure, resolver.finish = .error failure := by
  cases hsettled : resolver.settled with
  | true =>
      have hleft : FailureReport.unresolved resolver.waiting ≠ [] := fun hnone =>
        h.waiting_ne_nil (FailureReport.unresolved_eq_nil (haccounted hsettled) hnone)
      obtain ⟨failure, hfailure, -⟩ := conclude_of_unresolved hleft
      exact ⟨failure, (finish_of_settled hsettled).trans hfailure⟩
  | false =>
      obtain ⟨e, hrun⟩ := h.run_eq
      exact ⟨.structural e, by simp [finish, hsettled, hrun]⟩

/-! ## States behind a failing step -/

/-- How a state `after` a failing step, and after any calls that follow it, compares with the state
`before` that step. -/
structure HeldUp (before after : Resolver) : Prop where
  free : after.free = before.free
  names : Entity.names after.bound = Entity.names before.bound
  stats : after.stats = before.stats
  diagnostics : after.diagnostics = before.diagnostics
  /-- At most references of bound entities have changed. -/
  references : List.Forall₂ (fun old new : Entity => ∃ value, new = old.withReference value)
    before.bound after.bound
  step : ∃ e, after.step.2 = .error e
  run : ∃ e, after.run.2 = some e
  finish : ∃ failure, after.finish = .error failure

/-- Once a step has met a structural error, in a state that any calls lead to, nothing is lost and
nothing is gained: whatever is called then, no entity is promoted, every step meets a structural
error, and so does every run, and finishing fails. -/
theorem heldUp_of_step_error {calls : List Call}
    (h : ((start config catalog partition).after calls).step = (next, .error e))
    (more : List Call) :
    HeldUp ((start config catalog partition).after calls) (next.after more) := by
  have hstart : (start config catalog partition).Accounted := by
    intro hsettled
    simp [start] at hsettled
  have hnext : next.Accounted := by
    have haccounted := (accounted_after hstart calls).step
    rwa [h] at haccounted
  obtain ⟨hstep, hfaulty⟩ := rewritten_of_step_error h
  obtain ⟨hmore, hlast⟩ := rewritten_after hfaulty more
  have hall := hstep.trans hmore
  obtain ⟨e', hrun⟩ := hlast.run_eq
  refine ⟨?free, hall.names, ?stats, ?diagnostics, hall.references, step_error_iff.2 hlast,
    ⟨e', by rw [hrun]⟩, exists_finish_error (accounted_after hnext more) hlast⟩
  case free => rw [hall.rest]
  case stats => rw [hall.rest]
  case diagnostics => rw [hall.rest]

/-- A module that settles although it holds a faulty reference.  The argument map of `Y` is read as
a reference to `E`, and becomes a text only in the step after the run. -/
def delayedPartition : Partition where
  name := "Main"
  order := ["A", "T", "E", "X", "Y"]
  free := [.value "A" (.string "a"), .value "T" (.string "${A}")]
  bound := [.value "E" (.sub "${T}" []), .value "X" (.list [.ref "E", .ref "Nope"]),
    .value "Y" (.sub "${Z}" [("Ref", .string "E")])]

/-- Where the run from `delayedPartition` ends. -/
def delayedEnd : Resolver := (start {} .permissive delayedPartition).after [.run]

theorem heldUp_of_step_error_delayed :
    delayedEnd.settled = true ∧ ∃ next e, delayedEnd.step = (next, .error e) ∧
      next.bound ≠ delayedEnd.bound ∧ ∀ more, HeldUp delayedEnd (next.after more) := by
  have herror : delayedEnd.step.2 = .error (.malformed ["Y"] .patternArguments) := by
    decide +kernel
  have hstep : delayedEnd.step = (delayedEnd.step.1, .error (.malformed ["Y"] .patternArguments)) :=
    Prod.ext rfl herror
  have hbound : delayedEnd.step.1.bound ≠ delayedEnd.bound := by decide +kernel
  exact ⟨by decide +kernel, delayedEnd.step.1, _, hstep, hbound, heldUp_of_step_error hstep⟩

end Resolver

end StackLinker
