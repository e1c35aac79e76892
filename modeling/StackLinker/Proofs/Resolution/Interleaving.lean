import StackLinker.Proofs.Dependency.Completeness
import StackLinker.Proofs.Form.Rigidity
import StackLinker.Proofs.Resolution.Report
import StackLinker.Proofs.Substitution.Repeating

/-!
# The order of calls

A caller may step and run a resolver in any order before it asks for the result.  None of this
should matter: as long as no call meets a structural error, finishing gives the same module, or the
same diagnostics, as resolving from start to finish (`finish_after_calls`).

## Strategy

* A state is at rest if the next sweep keeps every bound entity as it is (`IsAtRest`).  From there a
  call changes nothing but counts (`IsAtRest.step`).
* A step that promotes nothing leads to a state at rest (`Proceeds.isAtRest`).  This is where a
  second pass has to find the same as the first one did, and where the conditions come from.
* So whatever is called, the state still leads to where a run ends, or it has got there (`Reaches`).

`interleavings_differ` shows for the conditions a module for which the calls do matter.
-/

namespace StackLinker

namespace Resolver

variable {config : Config} {catalog : Catalog} {graph : ModuleGraph} {partition : Partition}
  {resolver next last other : Resolver} {n : Nat}

/-! ## States that agree -/

/-- Whether two states differ at most in what they count and in whether they are settled. -/
def Agrees (resolver other : Resolver) : Prop :=
  { resolver with stats := other.stats, settled := other.settled } = other

theorem Agrees.refl (resolver : Resolver) : Agrees resolver resolver := rfl

theorem Agrees.symm (h : Agrees resolver other) : Agrees other resolver := by
  unfold Agrees
  rw [← h]

theorem Agrees.trans (first : Agrees resolver next) (second : Agrees next last) :
    Agrees resolver last := by
  unfold Agrees
  rw [← second, ← first]

theorem agrees_settle (resolver : Resolver) : Agrees resolver { resolver with settled := true } :=
  rfl

/-- States that agree conclude with the same module or the same failure. -/
theorem Agrees.conclude (h : Agrees resolver other) :
    resolver.conclude.map (·.1) = other.conclude.map (·.1) := by
  rw [← h]
  unfold Resolver.conclude
  simp only
  rw [show ({ resolver with stats := other.stats, settled := other.settled } :
    Resolver).surroundings = resolver.surroundings from rfl,
    show ({ resolver with stats := other.stats, settled := other.settled } :
    Resolver).partition = resolver.partition from rfl]
  cases linkDefinitions resolver.surroundings resolver.partition.toGraph.entities with
  | error e => rfl
  | ok linked =>
      simp only
      split <;> rfl

/-! ## States at rest -/

/-- Whether the next sweep keeps every bound entity as it is. -/
def IsAtRest (resolver : Resolver) : Prop :=
  ∀ pending ∈ resolver.waiting, resolver.surroundings.keeps? pending = some pending

theorem IsAtRest.congr (h : Agrees resolver other) (hrest : resolver.IsAtRest) :
    other.IsAtRest := by
  rw [← h]
  exact hrest

/-- From a state at rest a step changes only the counts. -/
theorem IsAtRest.step (hrest : resolver.IsAtRest) :
    ∃ next, resolver.step = (next, .ok 0) ∧ next.settled = true ∧ Agrees resolver next := by
  have hpasses : ∀ pending ∈ resolver.waiting, resolver.surroundings.Passes pending := by
    intro pending hpending
    obtain ⟨value, outcome, happly, -⟩ := Surroundings.keeps?_eq_some (hrest pending hpending)
    exact ⟨value, outcome, happly⟩
  have hpromotions : resolver.promotions = [] := by
    refine List.filterMap_eq_nil_iff.2 fun pending hpending => ?_
    obtain ⟨value, outcome, happly, hresolved, -⟩ :=
      Surroundings.keeps?_eq_some (hrest pending hpending)
    simp [Surroundings.promotes?, happly, hresolved]
  have hremaining : resolver.remaining = resolver.waiting :=
    (List.filterMap_congr hrest).trans List.filterMap_some
  refine ⟨_, step_of_passes hpasses |>.trans (by rw [hpromotions]; rfl), by simp, ?_⟩
  simp [Agrees, hremaining]

/-! ## Final references -/

/-- What the steps of a resolver preserve: as long as no attribute of a promoted entity was refused,
nothing is left to do in the free entities. -/
structure Proceeds (config : Config) (graph : ModuleGraph) (resolver : Resolver) : Prop where
  advances : Advances config graph resolver
  final : resolver.diagnostics = [] → ∀ entity ∈ resolver.free, entity.reference.IsFinal config

theorem proceeds_start (hstarts : Starts config graph) (h : graph.partition = .ok partition)
    (catalog : Catalog) : Proceeds config graph (start config catalog partition) := by
  refine ⟨advances_start hstarts h catalog, fun _ entity hentity => ?_⟩
  exact Value.isFinal_of_classify (classify_of_start h hentity)

theorem Proceeds.still (hstarts : Starts config graph)
    (hnumbers : ∀ name, graph.IsSpliced config name → ¬ config.IsSynthetic name)
    (h : Proceeds config graph resolver) (hclean : resolver.diagnostics = []) :
    resolver.surroundings.Still (graph.splicing config) := by
  have hconfig : resolver.surroundings.config = config := h.advances.config_eq
  refine ⟨h.advances.calm hstarts, fun target htarget => ?_, fun name hname => ?_⟩
  · rw [hconfig]
    exact h.final hclean target htarget
  · rw [hconfig]
    exact hnumbers name hname

theorem Proceeds.step (hstarts : Starts config graph)
    (hnumbers : ∀ name, graph.IsSpliced config name → ¬ config.IsSynthetic name)
    (h : Proceeds config graph resolver) (hstep : resolver.step = (next, .ok n)) :
    Proceeds config graph next := by
  refine ⟨h.advances.step hstarts hstep, fun hclean entity hentity => ?_⟩
  have hbefore : resolver.diagnostics = [] :=
    List.prefix_nil.1 (hclean ▸ diagnostics_prefix_step hstep)
  rcases of_mem_free_step hstep hentity with
    hold | ⟨pending, hpending, value, outcome, happly, hresolved, rfl⟩
  · exact h.final hbefore entity hold
  · -- Nothing was left in place and nothing was refused.
    have hinvalid : outcome.invalid = [] := List.subset_nil.1
      (hclean ▸ invalid_subset_diagnostics_step hstep hpending happly hresolved)
    rw [← show resolver.surroundings.config = config from h.advances.config_eq]
    exact Surroundings.isFinal_of_isClean (h.still hstarts hnumbers hbefore)
      (h.advances.tame_pending hpending) (Surroundings.apply_eq_ok_iff.1 happly)
      ⟨Outcome.isResolved_iff.1 hresolved, hinvalid⟩

/-- A step that promotes nothing leads to a state at rest. -/
theorem Proceeds.isAtRest (hstarts : Starts config graph)
    (hnumbers : ∀ name, graph.IsSpliced config name → ¬ config.IsSynthetic name)
    (h : Proceeds config graph resolver) (hclean : resolver.diagnostics = [])
    (hstep : resolver.step = (next, .ok 0)) : next.IsAtRest := by
  intro kept hkept
  obtain ⟨pending, hpending, value, outcome, happly, hresolved, rfl⟩ :=
    of_mem_waiting_step hstep hkept
  have hagain := Surroundings.apply_eq_ok_iff.2 (Surroundings.rewrites_again
    (h.still hstarts hnumbers hclean) (h.advances.tame_pending hpending)
    (Surroundings.apply_eq_ok_iff.1 happly))
  rw [surroundings_of_step hstep]
  simp [Surroundings.keeps?, hagain, hresolved]

/-- A run that meets no structural error ends in a state at rest, if no attribute of a promoted
entity was refused. -/
theorem isAtRest_of_run (hstarts : Starts config graph)
    (hnumbers : ∀ name, graph.IsSpliced config name → ¬ config.IsSynthetic name)
    (hpartition : graph.partition = .ok partition)
    (hclean : (start config catalog partition).run.1.diagnostics = [])
    (hrun : (start config catalog partition).run = (last, none)) : last.IsAtRest := by
  obtain ⟨final, hfinal, rfl, hend⟩ := run_invariant (fun h hstep => h.step hstarts hnumbers hstep)
    (proceeds_start hstarts hpartition catalog) hrun
  replace hclean : final.diagnostics = [] := by rwa [hrun] at hclean
  have hrest : final.IsAtRest := by
    rcases hend with hempty | ⟨before, hbefore, hstep⟩
    · simp [IsAtRest, hempty]
    · refine hbefore.isAtRest hstarts hnumbers ?_ hstep
      exact List.prefix_nil.1 (hclean ▸ diagnostics_prefix_step hstep)
  exact hrest.congr (agrees_settle final)

/-! ## Calls -/

/-- Whether a call is answered without a structural error. -/
def allows (resolver : Resolver) : Call → Bool
  | .step => resolver.step.2.toOption.isSome
  | .run => resolver.run.2.isNone

/-- Whether each call of a sequence is answered without a structural error. -/
def accepts : Resolver → List Call → Bool
  | _, [] => true
  | resolver, call :: rest => resolver.allows call && (resolver.perform call).accepts rest

theorem allows_step_iff : resolver.allows .step = true ↔ ∃ n, resolver.step.2 = .ok n := by
  unfold allows
  cases resolver.step.2 <;> simp [Except.toOption]

theorem allows_run_iff : resolver.allows .run = true ↔ resolver.run.2 = none := by
  simp [allows]

/-- Whether a state has got to where a run ends, or leads there. -/
def Reaches (last resolver : Resolver) : Prop :=
  (resolver.settled = true ∧ Agrees resolver last) ∨
    (resolver.settled = false ∧ resolver.run.2 = none ∧ Agrees resolver.run.1 last)

/-- What a step does on the way to the end of a run. -/
theorem reaches_of_step (hunsettled : resolver.settled = false) (hrun : resolver.run.2 = none)
    (hagrees : Agrees resolver.run.1 last) (hstep : resolver.step = (next, .ok n)) :
    Reaches last next := by
  have hsettled : next.settled = (n == 0 || next.waiting.isEmpty) := by
    obtain ⟨-, rfl, rfl⟩ := step_eq_ok hstep
    simp [hunsettled]
  cases hempty : resolver.waiting.isEmpty with
  | true =>
      -- Nothing is bound any more, so the step has nothing to do.
      rw [run_of_isEmpty hempty] at hagrees
      have hrest : resolver.IsAtRest := by simp [IsAtRest, List.isEmpty_iff.1 hempty]
      obtain ⟨other, hother, hdone, hsame⟩ := hrest.step
      obtain ⟨rfl, -⟩ := Prod.mk.inj (hstep.symm.trans hother)
      exact Or.inl ⟨hdone, hsame.symm.trans ((agrees_settle resolver).trans hagrees)⟩
  | false =>
      rw [run_of_ok hempty hstep] at hrun hagrees
      by_cases hn : n = 0
      · rw [if_pos hn] at hagrees
        exact Or.inl ⟨by simp [hsettled, hn], (agrees_settle next).trans hagrees⟩
      · rw [if_neg hn] at hrun hagrees
        cases hdone : next.waiting.isEmpty with
        | false => exact Or.inr ⟨by simp [hsettled, hn, hdone], hrun, hagrees⟩
        | true =>
            rw [run_of_isEmpty hdone] at hagrees
            exact Or.inl ⟨by simp [hsettled, hdone], (agrees_settle next).trans hagrees⟩

theorem Reaches.perform (hrest : last.IsAtRest) (h : Reaches last resolver) {call : Call}
    (hcall : resolver.allows call = true) : Reaches last (resolver.perform call) := by
  rcases h with ⟨hsettled, hagrees⟩ | ⟨hunsettled, hrun, hagrees⟩
  · obtain ⟨next, hstep, hdone, hsame⟩ := (hrest.congr hagrees.symm).step
    have hnext := hsame.symm.trans hagrees
    cases call with
    | step => exact Or.inl (by simpa [Resolver.perform, hstep] using ⟨hdone, hnext⟩)
    | run =>
        refine Or.inl ⟨settled_run (allows_run_iff.1 hcall), ?_⟩
        cases hempty : resolver.waiting.isEmpty with
        | true =>
            rw [Resolver.perform, run_of_isEmpty hempty]
            exact (agrees_settle resolver).symm.trans hagrees
        | false =>
            rw [Resolver.perform, run_of_ok hempty hstep, if_pos rfl]
            exact (agrees_settle next).symm.trans hnext
  · cases call with
    | step =>
        obtain ⟨n, hn⟩ := allows_step_iff.1 hcall
        exact reaches_of_step hunsettled hrun hagrees (Prod.ext rfl hn)
    | run => exact Or.inl ⟨settled_run (allows_run_iff.1 hcall), hagrees⟩

theorem Reaches.after (hrest : last.IsAtRest) (h : Reaches last resolver) {calls : List Call}
    (hcalls : resolver.accepts calls = true) : Reaches last (resolver.after calls) := by
  induction calls generalizing resolver with
  | nil => exact h
  | cons call rest ih =>
      obtain ⟨hcall, hrest'⟩ := Bool.and_eq_true_iff.1 hcalls
      exact ih (h.perform hrest hcall) hrest'

/-- Finishing concludes with what a run would end with. -/
theorem Reaches.finish (h : Reaches last resolver) :
    resolver.finish.map (·.1) = last.conclude.map (·.1) := by
  rcases h with ⟨hsettled, hagrees⟩ | ⟨hunsettled, hrun, hagrees⟩
  · rw [finish_of_settled hsettled, hagrees.conclude]
  · rw [← hagrees.conclude]
    simp [Resolver.finish, hunsettled, hrun]

/-- A step that promotes nothing leads to a state at rest from any state on the way. -/
theorem Reaches.isAtRest (hrest : last.IsAtRest) (h : Reaches last resolver)
    (hstep : resolver.step = (next, .ok 0)) : next.IsAtRest := by
  have hnext : Reaches last next := by
    have hperform : Reaches last (resolver.perform .step) :=
      h.perform hrest (allows_step_iff.2 ⟨0, by rw [hstep]⟩)
    rwa [Resolver.perform, hstep] at hperform
  have hsettled : next.settled = true := by
    obtain ⟨-, hcount, rfl⟩ := step_eq_ok hstep
    simp [← hcount]
  rcases hnext with ⟨-, hagrees⟩ | ⟨hunsettled, -⟩
  · exact hrest.congr hagrees.symm
  · simp [hsettled] at hunsettled

/-! ## Modules -/

/-- If the first sweep meets no structural error, the references of a rigid module are
well-formed. -/
theorem isWellFormed_of_step (hpartition : graph.partition = .ok partition)
    (hrigid : ∀ entity ∈ graph.entities, entity.reference.IsRigid)
    (hstep : (start config catalog partition).step = (next, .ok n)) :
    ∀ entity ∈ graph.entities, entity.reference.isWellFormed = true := by
  intro entity hentity
  obtain ⟨-, -, -, hbound⟩ := ModuleGraph.partition_eq_ok hpartition
  rw [Value.isWellFormed_iff]
  cases hfree : entity.isFree with
  | true =>
      -- Scalars and lists of scalars hold no form, so any pass goes over them.
      have hclass : entity.reference.classify entity.fullName = .ok .free := by
        simpa [Entity.isFree] using hfree
      have hfinal : entity.reference.IsFinal config := Value.isFinal_of_classify hclass
      exact Value.wellFormed_of_rewrites (hrigid entity hentity)
        (hfinal (start config catalog partition).surroundings rfl "" [] {})
  | false =>
      have hpending : (⟨entity, none⟩ : Pending) ∈ (start config catalog partition).waiting :=
        List.mem_map.2 ⟨entity, hbound ▸ List.mem_filter.2 ⟨hentity, by simp [hfree]⟩, rfl⟩
      obtain ⟨value, outcome, happly⟩ := (step_eq_ok hstep).1 _ hpending
      exact Value.wellFormed_of_rewrites (hrigid entity hentity)
        (Surroundings.apply_eq_ok_iff.1 happly)

theorem finish_of_unsettled (h : resolver.settled = false) : resolver.finish =
    match resolver.run.2 with
    | some e => .error (.structural e)
    | none => resolver.run.1.conclude := by
  cases hrun : resolver.run.2 <;> simp [finish, h, hrun]

/-- Without calls, finishing is resolving. -/
theorem finish_start (config : Config) (catalog : Catalog) (partition : Partition) :
    (start config catalog partition).finish = resolve config catalog partition := by
  rw [finish_of_unsettled rfl, resolve]
  cases hrun : (start config catalog partition).run.2 with
  | none => simp only [finish_of_settled (settled_run hrun)]
  | some e => rfl

/-- If the first sweep meets a structural error, so does any call. -/
theorem eq_nil_of_accepts {e : StructuralError} (hstep : resolver.step = (next, .error e))
    {calls : List Call} (hcalls : resolver.accepts calls = true) : calls = [] := by
  cases calls with
  | nil => rfl
  | cons call rest =>
      obtain ⟨hcall, -⟩ := Bool.and_eq_true_iff.1 hcalls
      cases call with
      | step =>
          obtain ⟨n, hn⟩ := allows_step_iff.1 hcall
          simp [hstep] at hn
      | run =>
          cases hempty : resolver.waiting.isEmpty with
          | true =>
              have hrest : resolver.IsAtRest := by simp [IsAtRest, List.isEmpty_iff.1 hempty]
              obtain ⟨other, hother, -⟩ := hrest.step
              simp [hstep] at hother
          | false =>
              have hrun := allows_run_iff.1 hcall
              simp [run_of_error hempty hstep] at hrun

/-- After any calls that meet no structural error, finishing gives what resolving gives, and a step
that promotes nothing is followed by steps that change nothing.  Names of added arguments must not
be asked for, and no attribute of a promoted entity may have been refused. -/
theorem finish_after_calls (hvalid : graph.Valid) (hpartition : graph.partition = .ok partition)
    (hmark : config.preserveMarker ≠ "") (hmarkers : config.HasPlainMarkers)
    (hrigid : ∀ entity ∈ graph.entities, entity.reference.IsRigid)
    (hregular : graph.IsRegular config)
    (hnumbers : ∀ name, graph.IsSpliced config name → ¬ config.IsSynthetic name)
    (hclean : (start config catalog partition).run.1.diagnostics = []) {calls : List Call}
    (hcalls : (start config catalog partition).accepts calls = true) :
    ((start config catalog partition).after calls).finish.map (·.1) =
        (resolve config catalog partition).map (·.1) ∧
      ∀ settled, ((start config catalog partition).after calls).step = (settled, .ok 0) →
        settled.step.2 = .ok 0 ∧ settled.step.1.free = settled.free ∧
          settled.step.1.waiting = settled.waiting := by
  rcases hstep : (start config catalog partition).step with ⟨next, e | n⟩
  · obtain rfl := eq_nil_of_accepts hstep hcalls
    refine ⟨congrArg _ (finish_start config catalog partition), fun settled hsettled => ?_⟩
    simp [after, hstep] at hsettled
  · have hstarts : Starts config graph :=
      ⟨hvalid, hmark, hmarkers, isWellFormed_of_step hpartition hrigid hstep, hregular⟩
    have hrun : (start config catalog partition).run.2 = none :=
      run_of_passes (fun h => h.advances.passes hstarts) (fun h => h.step hstarts hnumbers)
        (proceeds_start hstarts hpartition catalog)
    have hrest := isAtRest_of_run hstarts hnumbers hpartition hclean (Prod.ext rfl hrun)
    have hreaches : Reaches (start config catalog partition).run.1
        ((start config catalog partition).after calls) :=
      Reaches.after hrest (Or.inr ⟨rfl, hrun, .refl _⟩) hcalls
    refine ⟨?finish, fun settled hsettled => ?rest⟩
    case finish =>
      rw [hreaches.finish, ← finish_start, finish_of_unsettled rfl, hrun]
    case rest =>
      obtain ⟨next, hnext, -, hagrees⟩ := (hreaches.isAtRest hrest hsettled).step
      rw [hnext, ← hagrees]
      exact ⟨rfl, rfl, rfl⟩

/-- A module in which two entities are promoted one after the other while `Y` and `W` stay bound,
`Y` with a pattern that is filled in part. -/
def stalled : ModuleGraph where
  name := "Main"
  entities := [
    .value "A" (.string "a"), .value "L" (.list [.string "x"]), .value "B" (.ref "A"),
    .value "C" (.list [.ref "B", .ref "AWS::Id"]), .value "Y" (.sub "${B} ${L} ${Z}" []),
    .value "W" (.map [("y", .ref "Y"), ("a", .ref "A")])]

/-- The free and bound entities of `stalled`. -/
def stalledPartition : Partition where
  name := "Main"
  order := stalled.names
  free := stalled.entities.take 2
  bound := stalled.entities.drop 2

theorem finish_after_calls_stalled :
    stalled.Valid ∧ stalled.partition = .ok stalledPartition ∧
      ({} : Config).preserveMarker ≠ "" ∧ ({} : Config).HasPlainMarkers ∧
      (∀ entity ∈ stalled.entities, entity.reference.IsRigid) ∧ stalled.IsRegular {} ∧
      (∀ name, stalled.IsSpliced {} name → ¬ ({} : Config).IsSynthetic name) ∧
      (start {} .permissive stalledPartition).run.1.diagnostics = [] ∧
      (start {} .permissive stalledPartition).accepts [.step, .step, .step, .run, .step] = true ∧
      ((start {} .permissive stalledPartition).after
          [.step, .step, .step, .run, .step]).finish.map (·.1) =
        (resolve {} .permissive stalledPartition).map (·.1) ∧
      ∀ settled, ((start {} .permissive stalledPartition).after
          [.step, .step, .step, .run, .step]).step = (settled, .ok 0) →
        settled.step.2 = .ok 0 ∧ settled.step.1.free = settled.free ∧
          settled.step.1.waiting = settled.waiting := by
  have hvalid : stalled.Valid := ⟨by decide, by decide +kernel⟩
  have hpartition : stalled.partition = .ok stalledPartition := by rfl
  have hmarkers : ({} : Config).HasPlainMarkers := by constructor <;> decide
  have hwell : ∀ entity ∈ stalled.entities, entity.reference.isWellFormed = true := by
    decide +kernel
  have hregular : stalled.IsRegular {} := ModuleGraph.isRegular_of_isHarmless {} (by decide +kernel)
  have hnumbers : ∀ name, stalled.IsSpliced {} name → ¬ ({} : Config).IsSynthetic name := by
    have huses : ∀ entity ∈ stalled.entities, ∀ name ∈ entity.reference.uses {},
        Text.startsWith "P" name = false := by decide +kernel
    intro name hname
    obtain ⟨entity, hentity, hused⟩ := hname.exists_use
    exact Surroundings.not_isSynthetic (huses entity hentity name hused)
  have hrigid : ∀ entity ∈ stalled.entities, entity.reference.IsRigid := fun entity hentity =>
    Value.isRigid_of_isWellFormed (hwell entity hentity)
  have hclean : (start {} .permissive stalledPartition).run.1.diagnostics = [] := by decide +kernel
  have hcalls : (start {} .permissive stalledPartition).accepts
      [.step, .step, .step, .run, .step] = true := by decide +kernel
  exact ⟨hvalid, hpartition, by decide, hmarkers, hrigid, hregular, hnumbers, hclean, hcalls,
    finish_after_calls hvalid hpartition (by decide) hmarkers hrigid hregular hnumbers hclean hcalls⟩

/-! ## The conditions are needed -/

/-- How many faults a result reports. -/
def faults : Except LinkFailure ModuleGraph → Nat
  | .ok _ => 0
  | .error (.structural _) => 1
  | .error (.diagnostics errors) => errors.length

/-- After calls that meet no structural error, finishing gives something else than resolving. -/
def Differs (config : Config) (graph : ModuleGraph) (calls : List Call) : Prop :=
  ∃ partition, graph.partition = .ok partition ∧
    (start config .permissive partition).accepts calls = true ∧
    ((start config .permissive partition).after calls).finish.map (·.1) ≠
      (resolve config .permissive partition).map (·.1)

/-- A first step promotes nothing, and a second one promotes an entity. -/
def Stirs (config : Config) (graph : ModuleGraph) : Prop :=
  ∃ partition, graph.partition = .ok partition ∧
    (start config .permissive partition).step.2.toOption = some 0 ∧
    (start config .permissive partition).step.1.step.2.toOption = some 1

private theorem differs_of_faults {calls : List Call}
    (h : graph.partition.toOption.any (fun partition =>
      (start config .permissive partition).accepts calls &&
        faults (((start config .permissive partition).after calls).finish.map (·.1)) !=
          faults ((resolve config .permissive partition).map (·.1))) = true) :
    Differs config graph calls := by
  cases hpartition : graph.partition with
  | error e => simp [hpartition, Except.toOption] at h
  | ok partition =>
      simp only [hpartition, Except.toOption, Option.any_some, Bool.and_eq_true, bne_iff_ne] at h
      exact ⟨partition, hpartition, h.1, fun heq => h.2 (congrArg faults heq)⟩

/-- A module with a list and an entity that is bound. -/
def listed (value : Value) : ModuleGraph where
  name := "Main"
  entities := [.value "L" (.list [.string "x"]), .value "Y" value]

/-- A module in which a text opens an escape in front of a placeholder. -/
def escaping : ModuleGraph where
  name := "Main"
  entities := [.value "T" (.string "$\x7b!"), .value "Y" (.sub "${T}${B}" [])]

/-- Modules for which the calls matter: a text that swallows the placeholder behind it, an added
argument that binds a placeholder in front of it, an argument map that is itself a reference, a
resource whose name is not exempt because the marker is empty, and a refused attribute that is
passed on. -/
theorem interleavings_differ :
    (Stirs {} escaping ∧ Differs {} escaping [.step, .step]) ∧
      (Stirs {} (listed (.sub "${P0}${L}" [])) ∧
        Differs {} (listed (.sub "${P0}${L}" [])) [.step, .step]) ∧
      (Stirs {} (listed (.sub "${L}" [("Ref", .string "K")])) ∧
        Differs {} (listed (.sub "${L}" [("Ref", .string "K")])) [.step, .step]) ∧
      Differs { preserveMarker := "" } ⟨"Main", [
        { fullName := "M::R", kind := .resource, reference := .string "r" },
        .value "Y" (.list [.getAtt "M::R" "Arn", .ref "Z"])]⟩ [.run, .step] ∧
      Differs {} ⟨"Main", [.value "V" (.string "v"), .value "E" (.getAtt "V" "x"),
        .value "X" (.list [.ref "E", .ref "X"])]⟩ [.run, .step] := by
  refine ⟨⟨⟨_, rfl, ?_, ?_⟩, ?_⟩, ⟨⟨_, rfl, ?_, ?_⟩, ?_⟩, ⟨⟨_, rfl, ?_, ?_⟩, ?_⟩, ?_, ?_⟩
  all_goals first | decide +kernel | exact differs_of_faults (by decide +kernel)

end Resolver

end StackLinker
