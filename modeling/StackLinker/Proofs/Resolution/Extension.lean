import StackLinker.Proofs.Resolution.Deferral
import StackLinker.Proofs.Resolution.Missing
import StackLinker.Proofs.Substitution.Widening

/-!
# Extending a module

A module without substitutions, all of whose entities are resolved, is resolved in the same way as a
part of any larger module, whatever the other entities are: each of its entities becomes free, with
the same reference and in the same iteration (`resolves_alike_of_extension`).

The proof runs both resolvers side by side.  The state of the smaller module stays part of the state
of the larger one (`Includes`), so that names keep their meaning (`Includes.widens`) and a pass on
behalf of an entity of the smaller module does the same in both (`Includes.apply`).

This needs that the run of the smaller module never meets a missing name, since the larger module
may have an entity with this name.  In references without substitutions a missing name stays where
it is met, and holds its entity back until the end (`Blocked`); but nothing is bound in the end.
-/

namespace StackLinker

namespace Resolver

open Value

variable {config : Config} {catalog : Catalog} {graph extended : ModuleGraph}
  {partition others : Partition} {resolver first second next other last final : Resolver}
  {name key : String} {n m : Nat}

/-! ## Missing names hold entities back -/

/-- The references of a state have no substitutions. -/
def IsDirect (resolver : Resolver) : Prop :=
  ∀ entity ∈ resolver.free ++ resolver.bound, entity.reference.isDirect = true

theorem IsDirect.step (h : resolver.IsDirect) (hstep : resolver.step = (next, .ok n)) :
    next.IsDirect := by
  refine forall_references_step (R := fun _ v => v.isDirect = true) (fun happly hv => ?_) h hstep
  exact Surroundings.isDirect_of_yields (fun target htarget => h target (List.mem_append_left _ htarget))
    hv (Surroundings.yields_of_apply happly)

theorem IsDirect.pending (h : resolver.IsDirect) {pending : Pending}
    (hpending : pending ∈ resolver.waiting) : pending.entity.reference.isDirect = true :=
  h pending.entity (List.mem_append_right _ (List.mem_map_of_mem hpending))

/-- A bound entity uses a name that belongs to no entity. -/
structure Blocked (key : String) (resolver : Resolver) : Prop where
  direct : resolver.IsDirect
  missing : resolver.surroundings.meaning key = .missing
  waiting : ∃ pending ∈ resolver.waiting, key ∈ pending.entity.reference.uses resolver.config

/-- A name that belongs to no entity never comes to belong to one. -/
theorem meaning_eq_missing_step (h : resolver.surroundings.meaning key = .missing)
    (hstep : resolver.step = (next, .ok n)) : next.surroundings.meaning key = .missing := by
  obtain ⟨hexempt, hfree, hbound⟩ := Surroundings.meaning_eq_missing_iff.1 h
  have hnot : key ∉ Entity.names (next.free ++ next.bound) := by
    rw [(names_step_perm hstep).mem_iff, Entity.names_append, List.mem_append]
    exact not_or.2 ⟨Entity.find?_eq_none_iff.1 hfree, hbound⟩
  rw [Entity.names_append, List.mem_append, not_or] at hnot
  have hconfig : next.surroundings.config = resolver.surroundings.config := by
    rw [(step_eq_ok hstep).2.2]
    rfl
  exact Surroundings.meaning_eq_missing_iff.2
    ⟨hconfig ▸ hexempt, Entity.find?_eq_none_iff.2 hnot.1, hnot.2⟩

/-- An entity in which a pass notes a missing name is blocked afterwards. -/
theorem blocked_of_missing (h : resolver.IsDirect) (hstep : resolver.step = (next, .ok n))
    {pending : Pending} (hpending : pending ∈ resolver.waiting) {value : Value} {outcome : Outcome}
    (happly : resolver.surroundings.apply pending.entity.fullName pending.entity.reference =
      .ok (value, outcome)) {u : Unresolved} (hu : u ∈ outcome.missing) : Blocked u.key next := by
  obtain ⟨hmeaning, huses⟩ := (Surroundings.missing_of_rewrites (h.pending hpending)
    (Surroundings.apply_eq_ok_iff.1 happly) hu).resolve_left (by simp)
  have hnoted : u.key ∈ outcome.unresolved :=
    Outcome.mem_unresolved.2 (Or.inr (List.mem_map.2 ⟨u, hu, rfl⟩))
  have hunresolved : outcome.isResolved = false := by
    rw [← Bool.not_eq_true, Outcome.isResolved_iff]
    exact List.ne_nil_of_mem hnoted
  have hkeeps : resolver.surroundings.keeps? pending =
      some ⟨pending.entity.withReference value, some outcome⟩ := by
    simp [Surroundings.keeps?, happly, hunresolved]
  refine ⟨h.step hstep, meaning_eq_missing_step hmeaning hstep,
    ⟨pending.entity.withReference value, some outcome⟩, ?_, ?_⟩
  · rw [(step_eq_ok hstep).2.2]
    exact List.mem_filterMap.2 ⟨pending, hpending, hkeeps⟩
  · rw [(step_eq_ok hstep).2.2]
    exact huses

theorem Blocked.step (h : Blocked key resolver) (hstep : resolver.step = (next, .ok n)) :
    Blocked key next := by
  obtain ⟨pending, hpending, huses⟩ := h.waiting
  obtain ⟨value, outcome, happly⟩ := (step_eq_ok hstep).1 pending hpending
  have hopen : (resolver.surroundings.meaning key).isOpen = true := by
    rw [h.missing]
    rfl
  -- The pass meets the name again.
  have hnoted := Surroundings.mem_unresolved_of_mem_uses hopen
    (isPlain_of_isDirect (h.direct.pending hpending) _) huses
    (Surroundings.apply_eq_ok_iff.1 happly)
  obtain ⟨u, hu, rfl⟩ := Surroundings.exists_missing_of_apply happly hnoted
    (Surroundings.meaning_eq_missing_iff.1 h.missing).2.2
  exact blocked_of_missing h.direct hstep hpending happly hu

/-- If a run leaves nothing bound, no pass on the way to it notes a missing name. -/
theorem missing_eq_nil_of_run (h : resolver.IsDirect) (hstep : resolver.step = (next, .ok n))
    (hnone : next.run.2 = none) (hwaiting : next.run.1.waiting = []) {pending : Pending}
    (hpending : pending ∈ resolver.waiting) {value : Value} {outcome : Outcome}
    (happly : resolver.surroundings.apply pending.entity.fullName pending.entity.reference =
      .ok (value, outcome)) : outcome.missing = [] := by
  refine List.eq_nil_iff_forall_not_mem.2 fun u hu => ?_
  have hblocked := blocked_of_missing h hstep hpending happly hu
  have hrun : next.run = (next.run.1, none) := Prod.ext rfl hnone
  obtain ⟨last, ⟨-, -, waits, hwaits, -⟩, hlast, -⟩ := run_invariant Blocked.step hblocked hrun
  rw [hlast] at hwaiting
  exact List.ne_nil_of_mem hwaits hwaiting

/-! ## Steps side by side -/

/-- The entities of the first state are, free or bound, those of the second one as well. -/
structure Includes (first second : Resolver) : Prop where
  config : second.config = first.config
  catalog : second.catalog = first.catalog
  free : first.free ⊆ second.free
  waiting : first.waiting ⊆ second.waiting

theorem IsCovered.nodup_names (h : resolver.IsCovered) :
    (Entity.names (resolver.free ++ resolver.bound)).Nodup :=
  h.names.nodup_iff.2 h.nodup

theorem IsCovered.nodup_free (h : resolver.IsCovered) : (Entity.names resolver.free).Nodup := by
  have hall := h.nodup_names
  rw [Entity.names_append] at hall
  exact hall.of_append_left

theorem IsCovered.notMem_free (h : resolver.IsCovered) (hname : name ∈ Entity.names resolver.bound) :
    name ∉ Entity.names resolver.free := by
  have hall := h.nodup_names
  rw [Entity.names_append] at hall
  exact fun hfree => List.disjoint_of_nodup_append hall hfree hname

namespace Includes

theorem names_free (h : Includes first second) (hname : name ∈ Entity.names first.free) :
    name ∈ Entity.names second.free :=
  List.map_subset _ h.free hname

theorem names_bound (h : Includes first second) (hname : name ∈ Entity.names first.bound) :
    name ∈ Entity.names second.bound :=
  List.map_subset _ (List.map_subset _ h.waiting) hname

theorem widens (h : Includes first second) (hcovered : second.IsCovered) :
    first.surroundings.Widens second.surroundings := by
  refine ⟨h.config, h.catalog, fun key hmeaning => ?_⟩
  have hconfig : second.surroundings.config = first.surroundings.config := h.config
  cases hfirst : first.surroundings.meaning key with
  | exempt =>
      rw [Surroundings.meaning_eq_exempt_iff] at hfirst ⊢
      rw [hconfig, hfirst]
  | free target =>
      obtain ⟨hexempt, hfind⟩ := Surroundings.meaning_eq_free_iff.1 hfirst
      refine Surroundings.meaning_eq_free_iff.2 ⟨hconfig ▸ hexempt, ?_⟩
      exact (Entity.find?_eq_some_iff hcovered.nodup_free).2
        ⟨h.free (Entity.mem_of_find? hfind), Entity.fullName_of_find? hfind⟩
  | bound =>
      obtain ⟨hexempt, -, hmem⟩ := Surroundings.meaning_eq_bound_iff.1 hfirst
      have hbound : key ∈ second.surroundings.bound := h.names_bound hmem
      exact Surroundings.meaning_eq_bound_iff.2 ⟨hconfig ▸ hexempt,
        Entity.find?_eq_none_iff.2 (hcovered.notMem_free hbound), hbound⟩
  | missing => exact absurd hfirst hmeaning

/-- A pass on behalf of an entity of the first state does the same in the second one. -/
theorem apply (h : Includes first second) (hcovered : second.IsCovered) (hdirect : first.IsDirect)
    {pending : Pending} (hpending : pending ∈ first.waiting) {value : Value} {outcome : Outcome}
    (happly : first.surroundings.apply pending.entity.fullName pending.entity.reference =
      .ok (value, outcome)) (hmissing : outcome.missing = []) :
    second.surroundings.apply pending.entity.fullName pending.entity.reference =
      .ok (value, outcome) :=
  (h.widens hcovered).apply (hdirect.pending hpending) happly hmissing

/-- Every pass of the first state is one of the second state as well. -/
def SharesPasses (first second : Resolver) : Prop :=
  ∀ pending ∈ first.waiting, ∃ value outcome,
    first.surroundings.apply pending.entity.fullName pending.entity.reference =
        .ok (value, outcome) ∧
      second.surroundings.apply pending.entity.fullName pending.entity.reference =
        .ok (value, outcome)

theorem promotions_subset (h : Includes first second) (hshares : SharesPasses first second) :
    first.promotions ⊆ second.promotions := by
  intro entry hentry
  obtain ⟨pending, hpending, hsome⟩ := List.mem_filterMap.1 hentry
  obtain ⟨value, outcome, hfirst, hsecond⟩ := hshares pending hpending
  refine List.mem_filterMap.2 ⟨pending, h.waiting hpending, ?_⟩
  rw [← hsome, Surroundings.promotes?, Surroundings.promotes?, hfirst, hsecond]

theorem remaining_subset (h : Includes first second) (hshares : SharesPasses first second) :
    first.remaining ⊆ second.remaining := by
  intro kept hkept
  obtain ⟨pending, hpending, hsome⟩ := List.mem_filterMap.1 hkept
  obtain ⟨value, outcome, hfirst, hsecond⟩ := hshares pending hpending
  refine List.mem_filterMap.2 ⟨pending, h.waiting hpending, ?_⟩
  rw [← hsome, Surroundings.keeps?, Surroundings.keeps?, hfirst, hsecond]

/-- Of the entities of the first state, both states promote the same. -/
theorem mem_promotedNames_iff (h : Includes first second) (hcovered : second.IsCovered)
    (hshares : SharesPasses first second)
    (hname : name ∈ Entity.names (first.free ++ first.bound)) :
    name ∈ first.promotedNames ↔ name ∈ second.promotedNames := by
  constructor
  · exact fun hpromoted => List.map_subset _ (List.map_subset _ (h.promotions_subset hshares)) hpromoted
  · intro hpromoted
    rw [mem_promotedNames] at hpromoted ⊢
    obtain ⟨other, hother, rfl, value, outcome, happly, hresolved⟩ := hpromoted
    have hbound : other.name ∈ Entity.names second.bound :=
      List.mem_map_of_mem (List.mem_map_of_mem hother)
    rw [Entity.names_append, List.mem_append] at hname
    have hname := hname.resolve_left fun hfree => hcovered.notMem_free hbound (h.names_free hfree)
    rw [Resolver.names_bound] at hname
    obtain ⟨pending, hpending, hsame⟩ := List.mem_map.1 hname
    -- Names are distinct, so both states have the same entity.
    obtain rfl : pending = other := by
      refine List.inj_on_of_nodup_map ?_ (h.waiting hpending) hother hsame
      rw [← Resolver.names_bound]
      have hall := hcovered.nodup_names
      rw [Entity.names_append] at hall
      exact hall.of_append_right
    obtain ⟨value', outcome', hfirst, hsecond⟩ := hshares pending hpending
    obtain ⟨rfl, rfl⟩ := Prod.mk.inj (Except.ok.inj (happly.symm.trans hsecond))
    exact ⟨pending, hpending, rfl, value, outcome, hfirst, hresolved⟩

theorem step (h : Includes first second) (hshares : SharesPasses first second)
    (hstep : first.step = (next, .ok n)) (hother : second.step = (other, .ok m)) :
    Includes next other ∧ (n ≠ 0 → m ≠ 0) := by
  have hpromotions := h.promotions_subset hshares
  have hremaining := h.remaining_subset hshares
  obtain ⟨-, rfl, rfl⟩ := step_eq_ok hstep
  obtain ⟨-, rfl, rfl⟩ := step_eq_ok hother
  refine ⟨⟨h.config, h.catalog, ?_, hremaining⟩, fun hn hm => hn ?_⟩
  · exact List.append_subset.2 ⟨List.subset_append_of_subset_left _ h.free,
      List.subset_append_of_subset_right _ (List.map_subset _ hpromotions)⟩
  · rw [List.length_eq_zero_iff] at hm ⊢
    exact List.subset_nil.1 (hm ▸ hpromotions)

/-! ## Runs side by side -/

/-- Where both runs end: what is free in the first end is free in the second one, and the entities
of the first start were promoted in the same iterations. -/
structure EndAlike (first second last final : Resolver) : Prop where
  free : last.free ⊆ final.free
  rounds : ∃ rounds more, Iterated first rounds last ∧ Iterated second more final ∧
    ∀ name ∈ Entity.names (first.free ++ first.bound), ∀ i,
      name ∈ rounds.getD i [] ↔ name ∈ more.getD i []

/-- The second run may go on, but it promotes nothing any more that the first one knows. -/
theorem endAlike_of_done (h : Includes first second) (hcovered : second.IsCovered)
    (hempty : first.waiting = []) (hsecond : second.run.2 = none) :
    EndAlike first second { first with settled := true } second.run.1 := by
  obtain ⟨more, hmore⟩ := (@Iterated.refl second).run
  refine ⟨List.Subset.trans h.free (free_prefix_of_iterated hmore).subset, [], more,
    Iterated.refl.settle, hmore, fun name hname i => ?_⟩
  have hfree : name ∈ Entity.names second.free := by
    refine h.names_free ?_
    rwa [show first.bound = [] by rw [Resolver.bound, hempty]; rfl, List.append_nil] at hname
  have hnodup : (Entity.names second.run.1.free).Nodup := by
    obtain ⟨final, hfinal, hlast, -⟩ :=
      run_invariant IsCovered.step hcovered (Prod.ext rfl hsecond : second.run = (second.run.1, none))
    rw [hlast]
    exact hfinal.nodup_free
  rw [names_free_of_iterated hmore] at hnodup
  refine iff_of_false (by simp) fun hround => List.disjoint_of_nodup_append hnodup hfree ?_
  rw [List.getD_eq_getElem?_getD] at hround
  cases hget : more[i]? with
  | none => simp [hget] at hround
  | some round =>
      rw [hget, Option.getD_some] at hround
      exact List.mem_flatten.2 ⟨round, List.mem_of_getElem? hget, hround⟩

theorem endAlike_of_step (hcovered : second.IsCovered) (h : Includes first second)
    (hshares : SharesPasses first second) (hstep : first.step = (next, .ok n))
    (hother : second.step = (other, .ok m)) (hrest : EndAlike next other last final) :
    EndAlike first second last final := by
  obtain ⟨hfree, rounds, more, hrounds, hmore, hiff⟩ := hrest
  have hhead : ∀ {start after : Resolver} {k : Nat}, start.step = (after, .ok k) →
      Iterated start [start.promotedNames] after :=
    fun hstep => Iterated.refl.promote hstep (free_step hstep)
  refine ⟨hfree, first.promotedNames :: rounds, second.promotedNames :: more,
    (hhead hstep).trans hrounds, (hhead hother).trans hmore, fun name hname i => ?_⟩
  cases i with
  | zero => exact h.mem_promotedNames_iff hcovered hshares hname
  | succ i => exact hiff name ((names_step_perm hstep).mem_iff.2 hname) i

/-- A run that leaves nothing bound is followed by the run of any state that includes it. -/
theorem run (h : Includes first second) (hcovered : second.IsCovered) (hdirect : first.IsDirect)
    (hfirst : first.run.2 = none) (hwaiting : first.run.1.waiting = [])
    (hsecond : second.run.2 = none) : EndAlike first second first.run.1 second.run.1 := by
  refine run_induction (P := fun first ended => ∀ second, Includes first second →
    second.IsCovered → first.IsDirect → ended.2 = none → ended.1.waiting = [] →
    second.run.2 = none → EndAlike first second ended.1 second.run.1)
    ?done ?failed ?stalled ?promoted first second h hcovered hdirect hfirst hwaiting hsecond
  case done =>
    intro first hempty second h hcovered _ _ _ hsecond
    exact h.endAlike_of_done hcovered (List.isEmpty_iff.1 hempty) hsecond
  case failed =>
    intro first next e _ _ second _ _ _ hfirst
    simp at hfirst
  case stalled =>
    intro first next hempty hstep second _ _ _ _ hwaiting
    have hlength := length_waiting_of_step hstep
    rw [show next.waiting = [] from hwaiting] at hlength
    rw [List.isEmpty_eq_false_iff, ← List.length_pos_iff] at hempty
    simp only [List.length_nil] at hlength
    omega
  case promoted =>
    intro first next n hempty hstep hn ih second h hcovered hdirect hfirst hwaiting hsecond
    have hshares : SharesPasses first second := by
      intro pending hpending
      obtain ⟨value, outcome, happly⟩ := (step_eq_ok hstep).1 pending hpending
      exact ⟨value, outcome, happly, h.apply hcovered hdirect hpending happly
        (missing_eq_nil_of_run hdirect hstep hfirst hwaiting hpending happly)⟩
    have hnonempty : second.waiting.isEmpty = false := by
      rw [List.isEmpty_eq_false_iff] at hempty ⊢
      exact fun hnil => hempty (List.subset_nil.1 (hnil ▸ h.waiting))
    rcases hother : second.step with ⟨other, e | m⟩
    · rw [run_of_error hnonempty hother] at hsecond
      simp at hsecond
    · obtain ⟨hnext, hm⟩ := h.step hshares hstep hother
      rw [run_of_ok hnonempty hother, if_neg (hm hn)] at hsecond ⊢
      exact h.endAlike_of_step hcovered hshares hstep hother
        (ih other hnext (hcovered.step hother) (hdirect.step hstep) hfirst hwaiting hsecond)

end Includes

theorem includes_start (hincludes : graph.entities ⊆ extended.entities)
    (hpartition : graph.partition = .ok partition) (hothers : extended.partition = .ok others) :
    Includes (start config catalog partition) (start config catalog others) := by
  obtain ⟨-, -, hfree, hbound⟩ := ModuleGraph.partition_eq_ok hpartition
  obtain ⟨-, -, hfree', hbound'⟩ := ModuleGraph.partition_eq_ok hothers
  refine ⟨rfl, rfl, ?_, ?_⟩
  · simp only [start, hfree, hfree']
    exact List.filter_subset _ hincludes
  · simp only [start, hbound, hbound']
    exact List.map_subset _ (List.filter_subset _ hincludes)

/-- If a module without substitutions is resolved to the last entity, then in every module that has
its entities and some others each of them becomes free as well, with the same reference and in the
same iteration. -/
theorem resolves_alike_of_extension (hnodup : graph.names.Nodup)
    (hdistinct : extended.names.Nodup) (hincludes : graph.entities ⊆ extended.entities)
    (hdirect : ∀ entity ∈ graph.entities, entity.reference.isDirect = true)
    (hpartition : graph.partition = .ok partition) (hothers : extended.partition = .ok others)
    (hrun : (start config catalog partition).run = (last, none)) (hwaiting : last.waiting = [])
    (hextended : (start config catalog others).run = (final, none)) :
    ∃ rounds more, Iterated (start config catalog partition) rounds last ∧
      Iterated (start config catalog others) more final ∧
      ∀ entity ∈ graph.entities,
        (∃ value, entity.withReference value ∈ last.free ∧
          entity.withReference value ∈ final.free) ∧
        ∀ i, entity.fullName ∈ rounds.getD i [] ↔ entity.fullName ∈ more.getD i [] := by
  have hkept := kept_start hpartition config catalog
  have hstart : (start config catalog partition).IsDirect := fun entity hentity =>
    hdirect entity (mem_entities_of_start hpartition hentity)
  obtain ⟨hfree, rounds, more, hrounds, hmore, hiff⟩ :=
    (includes_start hincludes hpartition hothers).run (isCovered_start hdistinct hothers) hstart
      (by rw [hrun]) (by rw [hrun, hwaiting]) (by rw [hextended])
  rw [hrun] at hfree hrounds
  rw [hextended] at hfree hmore
  refine ⟨rounds, more, hrounds, hmore, fun entity hentity => ⟨?_, fun i => ?_⟩⟩
  · obtain ⟨value, hvalue⟩ :=
      (kept_of_iterated hkept hrounds).exists_free hnodup hwaiting hentity
    exact ⟨value, hvalue, hfree hvalue⟩
  · exact hiff _ (hkept.perm.mem_iff.2 (Entity.fullName_mem_names hentity)) i

/-- A chain that ends in an attribute of a resource. -/
def chained : ModuleGraph where
  name := "Main"
  entities := [
    .value "C" (.list [.ref "B", .ref "AWS::Id"]),
    { fullName := "R", kind := .resource, reference := .string "r" },
    .value "B" (.map [("a", .ref "A"), ("arn", .getAtt "R" "Arn")]), .value "A" (.string "a")]

/-- The same chain among entities that are stuck, cyclic, slow, or refer back into it. -/
def embedded : ModuleGraph where
  name := "Main"
  entities := [
    .value "Stuck" (.list [.ref "C", .ref "Nowhere"]), .value "C" (.list [.ref "B", .ref "AWS::Id"]),
    .value "Slow" (.sub "${C}-${A}-${Stuck}" []), .value "X" (.ref "Y"),
    { fullName := "R", kind := .resource, reference := .string "r" },
    .value "B" (.map [("a", .ref "A"), ("arn", .getAtt "R" "Arn")]), .value "Y" (.list [.ref "X"]),
    .value "A" (.string "a"), .value "After" (.ref "C"), .value "Last" (.sub "${After}" [])]

/-- The free and bound entities of `chained`. -/
def chainedPartition : Partition where
  name := "Main"
  order := chained.names
  free := chained.entities.filter Entity.isFree
  bound := chained.entities.filter fun entity => !entity.isFree

/-- The free and bound entities of `embedded`. -/
def embeddedPartition : Partition where
  name := "Main"
  order := embedded.names
  free := embedded.entities.filter Entity.isFree
  bound := embedded.entities.filter fun entity => !entity.isFree

/-- Where the run on `chained` ends. -/
def chainedEnd : Resolver := (start {} .permissive chainedPartition).run.1

/-- Where the run on `embedded` ends. -/
def embeddedEnd : Resolver := (start {} .permissive embeddedPartition).run.1

theorem resolves_alike_of_extension_chained :
    chained.names.Nodup ∧ embedded.names.Nodup ∧ chained.entities ⊆ embedded.entities ∧
      (∀ entity ∈ chained.entities, entity.reference.isDirect = true) ∧
      chained.partition = .ok chainedPartition ∧ embedded.partition = .ok embeddedPartition ∧
      (start {} .permissive chainedPartition).run = (chainedEnd, none) ∧
      chainedEnd.waiting = [] ∧
      (start {} .permissive embeddedPartition).run = (embeddedEnd, none) ∧
      Entity.names embeddedEnd.bound = ["Stuck", "Slow", "X", "Y"] ∧
      ∃ rounds more, Iterated (start {} .permissive chainedPartition) rounds chainedEnd ∧
        Iterated (start {} .permissive embeddedPartition) more embeddedEnd ∧
        ∀ entity ∈ chained.entities,
          (∃ value, entity.withReference value ∈ chainedEnd.free ∧
            entity.withReference value ∈ embeddedEnd.free) ∧
          ∀ i, entity.fullName ∈ rounds.getD i [] ↔ entity.fullName ∈ more.getD i [] := by
  have hnodup : chained.names.Nodup := by decide
  have hdistinct : embedded.names.Nodup := by decide
  have hincludes : chained.entities ⊆ embedded.entities := by decide +kernel
  have hdirect : ∀ entity ∈ chained.entities, entity.reference.isDirect = true := by decide +kernel
  have hpartition : chained.partition = .ok chainedPartition := by decide +kernel
  have hothers : embedded.partition = .ok embeddedPartition := by decide +kernel
  have hrun : (start {} .permissive chainedPartition).run = (chainedEnd, none) := by
    have hnone : (start {} .permissive chainedPartition).run.2 = none := by decide +kernel
    exact Prod.ext rfl hnone
  have hwaiting : chainedEnd.waiting = [] := by
    have hempty : chainedEnd.waiting.isEmpty = true := by decide +kernel
    exact List.isEmpty_iff.1 hempty
  have hextended : (start {} .permissive embeddedPartition).run = (embeddedEnd, none) := by
    have hnone : (start {} .permissive embeddedPartition).run.2 = none := by decide +kernel
    exact Prod.ext rfl hnone
  exact ⟨hnodup, hdistinct, hincludes, hdirect, hpartition, hothers, hrun, hwaiting, hextended,
    by decide +kernel, resolves_alike_of_extension hnodup hdistinct hincludes hdirect hpartition
      hothers hrun hwaiting hextended⟩

end Resolver

end StackLinker
