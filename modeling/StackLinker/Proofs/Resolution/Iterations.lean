import StackLinker.Proofs.Resolution.Accounting

/-!
# How many iterations a run takes

References may grow from one iteration to the next, and a reference that waits for a name that never
comes may wait for ever; neither says when a run ends.  What ends it is the number of bound
entities.  An iteration only begins while something is bound, and another one only follows if it
has promoted something, which is then bound no longer: before the last iteration at least one entity
is gone for each iteration so far, and at least one is left.  So a run never takes more iterations
than there are bound entities at the start, also if the last of them promotes nothing or meets a
structural error.

`RunsFor` says what the iterations of a run are, and how it ends after them.
-/

namespace StackLinker.Resolver

variable {first next last : Resolver} {failure : Option StructuralError} {count n : Nat}

/-- The state after a number of steps. -/
def afterSteps (resolver : Resolver) (count : Nat) : Resolver :=
  resolver.after (List.replicate count .step)

@[simp] theorem afterSteps_zero (resolver : Resolver) : resolver.afterSteps 0 = resolver := rfl

theorem afterSteps_succ (resolver : Resolver) (count : Nat) :
    resolver.afterSteps (count + 1) = resolver.step.1.afterSteps count := rfl

theorem afterSteps_of_step {answer : Except StructuralError Nat}
    (h : first.step = (next, answer)) (count : Nat) :
    first.afterSteps (count + 1) = next.afterSteps count := by
  rw [afterSteps_succ, h]

/-- A run makes `count` iterations and then ends, in the state `last`. -/
structure RunsFor (first : Resolver) (count : Nat) (last : Resolver)
    (failure : Option StructuralError) : Prop where
  /-- An iteration only begins while something is bound. -/
  begins : ∀ i < count, (first.afterSteps i).bound ≠ []
  /-- Every iteration but the last promotes something. -/
  goesOn : ∀ i, i + 1 < count → ∃ n, (first.afterSteps i).step.2 = .ok (n + 1)
  /-- A run without structural errors ends when nothing is bound, or with an iteration that promotes
  nothing. -/
  succeeded : failure = none → last = { first.afterSteps count with settled := true } ∧
    last.stats.iterations = first.stats.iterations + count ∧
    (last.bound = [] ∨ ∃ i, count = i + 1 ∧ (first.afterSteps i).step.2 = .ok 0)
  /-- A structural error comes from the last iteration, which is not counted then. -/
  failed : ∀ e, failure = some e → last = first.afterSteps count ∧
    ∃ i, count = i + 1 ∧ (first.afterSteps i).step.2 = .error e ∧
      last.stats.iterations = first.stats.iterations + i

theorem stats_step (h : first.step = (next, .ok n)) :
    next.stats.iterations = first.stats.iterations + 1 ∧
      next.stats.promoted = first.stats.promoted + n := by
  obtain ⟨-, rfl, rfl⟩ := step_eq_ok h
  exact ⟨rfl, rfl⟩

theorem length_bound (resolver : Resolver) : resolver.bound.length = resolver.waiting.length :=
  List.length_map _

theorem bound_ne_nil (h : first.waiting.isEmpty = false) : first.bound ≠ [] := by
  rw [← List.length_pos_iff, length_bound, List.length_pos_iff]
  simpa using h

/-! ## Runs, by the iterations that they make -/

theorem RunsFor.of_done (h : first.waiting.isEmpty = true) :
    RunsFor first 0 { first with settled := true } none := by
  refine ⟨by simp, by simp, fun _ => ⟨rfl, rfl, Or.inl ?_⟩, by simp⟩
  simp [bound, List.isEmpty_iff.1 h]

theorem RunsFor.of_stalled (hbound : first.waiting.isEmpty = false)
    (h : first.step = (next, .ok 0)) : RunsFor first 1 { next with settled := true } none := by
  refine ⟨fun i hi => ?begins, fun i hi => by omega, fun _ => ⟨?last, ?count, ?ends⟩, by simp⟩
  case begins =>
    obtain rfl : i = 0 := by omega
    exact bound_ne_nil hbound
  case last => rw [afterSteps_of_step h, afterSteps_zero]
  case count => exact (stats_step h).1
  case ends => exact Or.inr ⟨0, rfl, by rw [afterSteps_zero, h]⟩

theorem RunsFor.of_failed {e : StructuralError} (hbound : first.waiting.isEmpty = false)
    (h : first.step = (next, .error e)) : RunsFor first 1 next (some e) := by
  refine ⟨fun i hi => ?begins, fun i hi => by omega, by simp, fun other hother => ?failed⟩
  case begins =>
    obtain rfl : i = 0 := by omega
    exact bound_ne_nil hbound
  case failed =>
    obtain rfl := Option.some.inj hother
    refine ⟨by rw [afterSteps_of_step h, afterSteps_zero], 0, rfl,
      by rw [afterSteps_zero, h], ?_⟩
    obtain ⟨_, _, -, rfl⟩ := step_eq_error h
    rfl

/-- An iteration that promotes something goes before those of the run that follows. -/
theorem RunsFor.of_promoted (hbound : first.waiting.isEmpty = false)
    (h : first.step = (next, .ok n)) (hn : n ≠ 0) (hnext : RunsFor next count last failure) :
    RunsFor first (count + 1) last failure := by
  have hstats := (stats_step h).1
  refine ⟨fun i hi => ?begins, fun i hi => ?goesOn, fun hnone => ?succeeded, fun e he => ?failed⟩
  case begins =>
    cases i with
    | zero => exact bound_ne_nil hbound
    | succ i =>
        rw [afterSteps_of_step h]
        exact hnext.begins i (by omega)
  case goesOn =>
    cases i with
    | zero =>
        obtain ⟨m, rfl⟩ := Nat.exists_eq_succ_of_ne_zero hn
        exact ⟨m, by rw [afterSteps_zero, h]⟩
    | succ i =>
        rw [afterSteps_of_step h]
        exact hnext.goesOn i (by omega)
  case succeeded =>
    obtain ⟨hlast, hcount, hend⟩ := hnext.succeeded hnone
    refine ⟨by rw [afterSteps_of_step h, hlast], by omega, hend.imp_right ?_⟩
    rintro ⟨i, rfl, hstalled⟩
    exact ⟨i + 1, rfl, by rw [afterSteps_of_step h, hstalled]⟩
  case failed =>
    obtain ⟨hlast, i, rfl, herror, hcount⟩ := hnext.failed e he
    exact ⟨by rw [afterSteps_of_step h, hlast], i + 1, rfl, by rw [afterSteps_of_step h, herror],
      by omega⟩

/-- A run takes at most as many iterations as there are bound entities. -/
theorem exists_runsFor (resolver : Resolver) :
    ∃ count ≤ resolver.waiting.length,
      RunsFor resolver count resolver.run.1 resolver.run.2 := by
  refine run_induction (P := fun first ended => ∃ count ≤ first.waiting.length,
    RunsFor first count ended.1 ended.2) ?done ?failed ?stalled ?promoted resolver
  case done =>
    intro first hempty
    exact ⟨0, Nat.zero_le _, .of_done hempty⟩
  case failed =>
    intro first next e hbound hstep
    exact ⟨1, List.length_pos_iff.2 (by simpa using hbound), .of_failed hbound hstep⟩
  case stalled =>
    intro first next hbound hstep
    exact ⟨1, List.length_pos_iff.2 (by simpa using hbound), .of_stalled hbound hstep⟩
  case promoted =>
    -- The iteration leaves at least one bound entity fewer to the run that follows.
    intro first next n hbound hstep hn ⟨count, hle, hnext⟩
    have hlength := length_waiting_of_step hstep
    exact ⟨count + 1, by omega, hnext.of_promoted hbound hstep hn⟩

/-! ## What a run promotes -/

/-- Each entity that a run counts as promoted is bound no longer, and nothing else is missing. -/
theorem promoted_run (resolver : Resolver) :
    resolver.run.1.stats.promoted + resolver.run.1.waiting.length =
      resolver.stats.promoted + resolver.waiting.length := by
  refine run_induction (P := fun first ended => ended.1.stats.promoted + ended.1.waiting.length =
    first.stats.promoted + first.waiting.length) ?done ?failed ?stalled ?promoted resolver
  case done => exact fun _ _ => rfl
  case failed =>
    intro first next e _ hstep
    obtain ⟨before, after, hwaiting, rfl⟩ := step_eq_error hstep
    simp [hwaiting]
  case stalled =>
    intro first next _ hstep
    have hlength := length_waiting_of_step hstep
    have hpromoted := (stats_step hstep).2
    simp only
    omega
  case promoted =>
    intro first next n _ hstep _ ih
    have hlength := length_waiting_of_step hstep
    have hpromoted := (stats_step hstep).2
    omega

/-- From every partition, a run ends after at most as many iterations as there are bound entities:
every iteration but the last promotes something, and the last leaves nothing bound, promotes nothing
or meets a structural error.  What the run counts as promoted is what is no longer bound. -/
theorem run_within_bound (config : Config) (catalog : Catalog) (partition : Partition) :
    (∃ count ≤ partition.bound.length,
      RunsFor (start config catalog partition) count (start config catalog partition).run.1
        (start config catalog partition).run.2) ∧
      (start config catalog partition).run.1.stats.promoted +
        (start config catalog partition).run.1.bound.length = partition.bound.length := by
  have hlength : (start config catalog partition).waiting.length = partition.bound.length := by
    rw [← length_bound, bound_start]
  have hpromoted := promoted_run (start config catalog partition)
  have hnone : (start config catalog partition).stats.promoted = 0 := rfl
  rw [← length_bound _] at hpromoted
  refine ⟨?_, by omega⟩
  rw [← hlength]
  exact exists_runsFor _

/-- A chain of references takes as many iterations as it has bound entities. -/
example : (start {} .permissive
    { name := "Main", order := ["C", "B", "A", "T"], free := [.value "T" (.string "t")],
      bound := [.value "C" (.ref "B"), .value "B" (.ref "A"),
        .value "A" (.ref "T")] }).run.1.stats =
    { initiallyFree := 1, iterations := 3, promoted := 3 } := by
  decide +kernel

end StackLinker.Resolver
