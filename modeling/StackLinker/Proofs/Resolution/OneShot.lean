import StackLinker.Proofs.Resolution.Accounting
import StackLinker.Proofs.Substitution.Direct

/-!
# Resolution in one pass

A resolver substitutes into a reference again and again while more and more entities become free.
If no declared reference has a substitution in it, this comes to the same as one pass over the
declared reference against the entities that are free in the end (`apply_declared_of_run`).

## Strategy

The invariant (`Develops`) looks ahead: it speaks of all surroundings `later` that a state may still
lead to.

* Whatever `later` makes of the present reference of an entity it makes of the declared one.  Each
  step adds one pass between the two, which `Yields.absorb` removes.
* A pass in `later` leaves the references of free entities as they are, since nothing was left in
  place when they were promoted (`rests_of_rewrites`).

In the last state, both together say what a pass makes of a declared reference: the present one.
-/

namespace StackLinker

namespace Resolver

open Value

variable {config : Config} {catalog : Catalog} {graph : ModuleGraph} {partition : Partition}
  {resolver next last : Resolver} {n : Nat}

theorem precedes_step (h : resolver.step = (next, .ok n)) :
    resolver.surroundings.Precedes next.surroundings := by
  refine ⟨by rw [(step_eq_ok h).2.2]; rfl, by rw [(step_eq_ok h).2.2]; rfl, ?_⟩
  intro name target hfind
  have hfree : next.surroundings.free = resolver.free ++ resolver.promotions.map (·.1) :=
    free_step h
  rw [hfree, Entity.find?_append, show Entity.find? name resolver.free = _ from hfind]
  rfl

/-- What is known of an entity while references without substitutions are resolved. -/
structure Develops (graph : ModuleGraph) (resolver : Resolver) (entity : Entity) : Prop where
  direct : entity.reference.isDirect = true
  /-- Later passes make the same of the declared reference as of the present one. -/
  declared : ∃ origin ∈ graph.entities, entity = origin.withReference entity.reference ∧
    ∀ later, resolver.surroundings.Precedes later → ∀ value,
      later.Yields entity.reference value → later.Yields origin.reference value

/-- What the steps of a resolver preserve. -/
structure IsIncremental (graph : ModuleGraph) (resolver : Resolver) : Prop where
  mark : resolver.config.preserveMarker ≠ ""
  develops : ∀ entity ∈ resolver.free ++ resolver.bound, Develops graph resolver entity
  rests : ∀ later, resolver.surroundings.Precedes later → ∀ entity ∈ resolver.free,
    later.Rests entity.reference

theorem isIncremental_start (h : graph.partition = .ok partition)
    (hmark : config.preserveMarker ≠ "")
    (hdirect : ∀ entity ∈ graph.entities, entity.reference.isDirect = true) (catalog : Catalog) :
    IsIncremental graph (start config catalog partition) := by
  refine ⟨hmark, ?develops, ?rests⟩
  case develops =>
    intro entity hentity
    have hdeclared := mem_entities_of_start h hentity
    exact ⟨hdirect entity hdeclared, entity, hdeclared, rfl, fun _ _ _ => id⟩
  case rests =>
    intro later _ entity hentity
    exact Surroundings.rests_of_classify (classify_of_start h hentity)

theorem IsIncremental.supplies (h : IsIncremental graph resolver) {later : Surroundings}
    (hlater : resolver.surroundings.Precedes later) : resolver.surroundings.Supplies later :=
  ⟨hlater, h.mark, h.rests later hlater⟩

/-- A pass over the reference of an entity takes it one step further. -/
theorem IsIncremental.develops_pass (h : IsIncremental graph resolver)
    (hnext : resolver.surroundings.Precedes next.surroundings) {entity : Entity}
    (hentity : entity ∈ resolver.bound) {value : Value} {outcome : Outcome}
    (happly : resolver.surroundings.apply entity.fullName entity.reference = .ok (value, outcome)) :
    Develops graph next (entity.withReference value) := by
  obtain ⟨hdirect, origin, horigin, hentityEq, hdeclared⟩ :=
    h.develops entity (List.mem_append_right _ hentity)
  have hyields := Surroundings.yields_of_apply happly
  have hfree : ∀ target ∈ resolver.free, target.reference.isDirect = true := fun target htarget =>
    (h.develops target (List.mem_append_left _ htarget)).direct
  refine ⟨Surroundings.isDirect_of_yields hfree hdirect hyields, origin, horigin, ?_, ?_⟩
  · rw [hentityEq, Entity.withReference_withReference]
    rfl
  · intro later hlater x hx
    have hprecedes := hnext.trans hlater
    exact hdeclared later hprecedes x (hyields.absorb (h.supplies hprecedes) hdirect hx)

theorem IsIncremental.step (h : IsIncremental graph resolver)
    (hstep : resolver.step = (next, .ok n)) : IsIncremental graph next := by
  have hnext := precedes_step hstep
  have hconfig : next.config = resolver.config := hnext.config
  refine ⟨hconfig ▸ h.mark, ?develops, ?rests⟩
  case develops =>
    intro entity hentity
    rcases List.mem_append.1 hentity with hfree | hbound
    · rcases of_mem_free_step hstep hfree with hold | ⟨pending, hpending, value, _, happly, -, rfl⟩
      · -- What later passes do does not depend on the states in between.
        obtain ⟨hdirect, origin, horigin, heq, hdeclared⟩ :=
          h.develops entity (List.mem_append_left _ hold)
        exact ⟨hdirect, origin, horigin, heq, fun later hlater =>
          hdeclared later (hnext.trans hlater)⟩
      · exact h.develops_pass hnext (List.mem_map_of_mem hpending) happly
    · obtain ⟨kept, hkept, rfl⟩ := List.mem_map.1 hbound
      obtain ⟨pending, hpending, value, _, happly, -, rfl⟩ := of_mem_waiting_step hstep hkept
      exact h.develops_pass hnext (List.mem_map_of_mem hpending) happly
  case rests =>
    intro later hlater entity hentity
    have hprecedes := hnext.trans hlater
    rcases of_mem_free_step hstep hentity with
      hold | ⟨pending, hpending, value, outcome, happly, hresolved, rfl⟩
    · exact h.rests later hprecedes entity hold
    · have hbound : pending.entity ∈ resolver.bound := List.mem_map_of_mem hpending
      exact Surroundings.rests_of_rewrites (h.supplies hprecedes)
        (h.develops _ (List.mem_append_right _ hbound)).direct
        (Surroundings.apply_eq_ok_iff.1 happly) (Outcome.isResolved_iff.1 hresolved)

/-- Without substitutions, where a run ends, one pass over the declared reference of an entity that
has become free gives its present reference. -/
theorem apply_declared_of_run (hnodup : graph.names.Nodup) (h : graph.partition = .ok partition)
    (hmark : config.preserveMarker ≠ "")
    (hdirect : ∀ entity ∈ graph.entities, entity.reference.isDirect = true)
    (hrun : (start config catalog partition).run = (last, none)) :
    ∀ origin ∈ graph.entities, ∀ entity ∈ last.free, entity.fullName = origin.fullName →
      entity = origin.withReference entity.reference ∧
        ∃ outcome, last.surroundings.apply origin.fullName origin.reference =
          .ok (entity.reference, outcome) := by
  intro origin horigin entity hentity hname
  obtain ⟨final, hfinal, rfl, -⟩ := run_invariant (fun h hstep => h.step hstep)
    (isIncremental_start h hmark hdirect catalog) hrun
  have hfree : entity ∈ final.free := hentity
  obtain ⟨-, declared, hmem, heq, hdeclared⟩ :=
    hfinal.develops entity (List.mem_append_left _ hfree)
  -- Names are distinct, so this is the declared entity.
  obtain rfl : declared = origin := by
    refine List.inj_on_of_nodup_map hnodup hmem horigin ?_
    rw [← hname, heq, Entity.fullName_withReference]
  have hrefl := Surroundings.Precedes.refl final.surroundings
  exact ⟨heq, Surroundings.exists_apply_of_yields
    (hdeclared _ hrefl _ (hfinal.rests _ hrefl entity hfree)) _⟩

/-- A module in which `N` asks for what `S` names, and a map with an attribute of a resource is
passed on from `B` to `N` and to `C`; `X` stays bound. -/
def graded : ModuleGraph where
  name := "Main"
  entities := [
    .value "S" (.string "B"), .value "A" (.string "a"),
    { fullName := "R", kind := .resource, reference := .ref "@R" },
    .value "B" (.map [("a", .ref "A"), ("arn", .getAtt "R" "Arn")]),
    .value "N" (.map [("Ref", .ref "S")]), .value "C" (.list [.ref "B", .ref "N", .ref "AWS::Id"]),
    .value "X" (.ref "Y")]

/-- The free and bound entities of `graded`. -/
def gradedPartition : Partition where
  name := "Main"
  order := graded.names
  free := graded.entities.take 2
  bound := graded.entities.drop 2

/-- Where the run from `gradedPartition` ends, after five iterations. -/
def gradedEnd : Resolver := (start {} .permissive gradedPartition).run.1

theorem apply_declared_of_run_graded :
    graded.names.Nodup ∧ graded.partition = .ok gradedPartition ∧
      ({} : Config).preserveMarker ≠ "" ∧
      (∀ entity ∈ graded.entities, entity.reference.isDirect = true) ∧
      (start {} .permissive gradedPartition).run = (gradedEnd, none) ∧
      gradedEnd.stats.iterations = 5 ∧ gradedEnd.stats.promoted = 4 ∧
      ∀ origin ∈ graded.entities, ∀ entity ∈ gradedEnd.free, entity.fullName = origin.fullName →
        entity = origin.withReference entity.reference ∧
          ∃ outcome, gradedEnd.surroundings.apply origin.fullName origin.reference =
            .ok (entity.reference, outcome) := by
  have hnodup : graded.names.Nodup := by decide
  have hpartition : graded.partition = .ok gradedPartition := by rfl
  have hdirect : ∀ entity ∈ graded.entities, entity.reference.isDirect = true := by decide +kernel
  have hrun : (start {} .permissive gradedPartition).run = (gradedEnd, none) := by
    have hnone : (start {} .permissive gradedPartition).run.2 = none := by decide +kernel
    exact Prod.ext rfl hnone
  exact ⟨hnodup, hpartition, by decide, hdirect, hrun, by decide +kernel, by decide +kernel,
    apply_declared_of_run hnodup hpartition (by decide) hdirect hrun⟩

end Resolver

end StackLinker
