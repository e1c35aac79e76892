import StackLinker.Proofs.Resolution.Schedule
import StackLinker.Proofs.Resolution.Success

/-!
# How resolution ends

A resolution hands back a module, or it ends with a structural error, or with diagnostics.  Which of
the three it is can be read off from what is declared (`ModuleGraph.IsRigid.structural_iff`,
`ModuleGraph.IsRigid.resolves_iff`), as long as no malformed node can take the right shape on the
way.

## Strategy

* A malformed reference ends the first sweep.
* Where all references are well-formed, a pass over a bound entity notes exactly those of its
  declared dependencies that are not free: none is lost, since what is denied is still asked for
  (`Asks`), and none is added (`Advances`).  So the run follows the ranks (`exists_followsRanks`),
  and the entities that have a rank are those that become free.
* Their declarations are linked at the end.  So a malformed declaration ends the resolution if and
  only if its entity has a rank.
-/

namespace StackLinker

/-- How a resolution ends. -/
inductive Ending where
  | linked
  | structural
  | reported
deriving DecidableEq

/-- How a resolution with a result ends. -/
def Ending.of : Except LinkFailure (ModuleGraph × Stats) → Ending
  | .ok _ => .linked
  | .error (.structural _) => .structural
  | .error (.diagnostics _) => .reported

/-- Resolutions end alike if both or neither of them have a result, and both or neither of them meet
a structural error. -/
theorem Ending.of_eq {result other : Except LinkFailure (ModuleGraph × Stats)}
    (hok : (∃ pair, result = .ok pair) ↔ ∃ pair, other = .ok pair)
    (hstructural : (∃ e, result = .error (.structural e)) ↔
      ∃ e, other = .error (.structural e)) : Ending.of result = Ending.of other := by
  rcases result with (e | found) | pair
  · obtain ⟨e', rfl⟩ := hstructural.1 ⟨e, rfl⟩
    rfl
  · rcases other with (e' | found') | pair'
    · obtain ⟨e, he⟩ := hstructural.2 ⟨e', rfl⟩
      exact absurd he nofun
    · rfl
    · obtain ⟨pair, hpair⟩ := hok.2 ⟨pair', rfl⟩
      exact absurd hpair nofun
  · obtain ⟨pair', rfl⟩ := hok.1 ⟨pair, rfl⟩
    rfl

namespace Resolver

open Value

variable {config : Config} {catalog : Catalog} {graph : ModuleGraph} {resolver next : Resolver}
  {partition : Partition} {n : Nat}

/-! ## The timetable -/

/-- What is known of a state while no dependency is added or lost. -/
structure Heeds (config : Config) (graph : ModuleGraph) (resolver : Resolver) : Prop where
  advances : Advances config graph resolver
  asks : Asks graph resolver

section Heeds

variable (hstarts : Starts config graph)
  (hnumbers : ∀ entity ∈ graph.entities, ∀ name ∈ entity.reference.uses config,
    ¬ config.IsSynthetic name)

include hstarts hnumbers

/-- A pass notes exactly the declared dependencies that are not free. -/
theorem Heeds.mem_unresolved_iff (h : Heeds config graph resolver) {pending : Pending}
    (hpending : pending ∈ resolver.waiting) {value : Value} {outcome : Outcome}
    (happly : resolver.surroundings.apply pending.entity.fullName pending.entity.reference =
      .ok (value, outcome)) {other : String} :
    other ∈ outcome.unresolved ↔
      graph.DependsOn config pending.name other ∧ other ∉ Entity.names resolver.free := by
  have hleaves := h.advances.leaves hstarts hpending happly
  have hconfig : resolver.surroundings.config = config := h.advances.config_eq
  refine ⟨hleaves.noted other, ?_⟩
  rintro ⟨⟨origin, horigin, hname, huses⟩, hbound⟩
  obtain ⟨placeholder, hrequested, rfl, hexempt⟩ := mem_uses_iff_requested.1 huses
  have hdenied : resolver.surroundings.IsDenied placeholder := by
    refine ⟨hconfig.symm ▸ hexempt, Option.eq_none_iff_forall_ne_some.2 fun granted hgrant => ?_⟩
    obtain ⟨target, hmeaning, -⟩ := Surroundings.grant?_eq_some hgrant
    exact hbound (Surroundings.mem_names_of_meaning hmeaning)
  have hstill := h.asks.of_apply hstarts hnumbers h.advances hpending happly horigin hname
    hrequested hdenied
  have hleft := mem_uses_iff_requested.2 ⟨placeholder, hstill, rfl, hexempt⟩
  exact ((hleaves.uses placeholder.name hleft).resolve_left hbound).2

/-- The sweeps keep to the declared dependencies. -/
theorem schedules_heeds : Schedules config graph (Heeds config graph) := by
  refine schedules_of_noted (fun h hstep => ⟨h.advances.step hstarts hstep,
    h.asks.step hstarts hnumbers h.advances hstep⟩) fun h pending hpending => ?_
  obtain ⟨value, outcome, happly, -⟩ := h.advances.exists_apply hstarts hpending
  exact ⟨value, outcome, happly, fun _ =>
    h.mem_unresolved_iff hstarts hnumbers hpending happly⟩

/-- A run follows the ranks. -/
theorem exists_followsRanks (h : graph.partition = .ok partition) (catalog : Catalog) :
    (start config catalog partition).run.2 = none ∧
      ∃ rounds, Kept graph rounds (start config catalog partition).run.1 ∧
        FollowsRanks config graph rounds (start config catalog partition).run.1 := by
  have hnodup := hstarts.valid.nodup
  have hstart : Heeds config graph (start config catalog partition) :=
    ⟨advances_start hstarts h catalog, asks_start hnodup h catalog⟩
  obtain ⟨hnone, rounds, hiterated, hfollows⟩ :=
    (schedules_heeds hstarts hnumbers).run hnodup h hstart
  exact ⟨hnone, rounds, kept_of_iterated (kept_start h config catalog) hiterated, hfollows⟩

end Heeds

/-- The entities that have a rank are free in the end. -/
theorem FollowsRanks.mem_free_iff {rounds others : List (List String)}
    (hkept : Kept graph others resolver) (hnodup : graph.names.Nodup)
    (h : FollowsRanks config graph rounds resolver) {name : String} :
    name ∈ Entity.names resolver.free ↔ ∃ rank, graph.HasRank config name rank := by
  have hbound := h.bound name
  rw [hkept.mem_bound_iff hnodup] at hbound
  constructor
  · intro hfree
    have hname : name ∈ graph.names := by
      refine hkept.perm.mem_iff.1 ?_
      rw [Entity.names_append]
      exact List.mem_append_left _ hfree
    by_contra hnone
    exact (hbound.2 ⟨hname, not_exists.1 hnone⟩).2 hfree
  · rintro ⟨rank, hrank⟩
    by_contra hnot
    exact (hbound.1 ⟨hrank.mem_names, hnot⟩).2 rank hrank

/-! ## Declarations -/

theorem exists_linkDefinitions_iff {around : Surroundings} {entities : List Entity} :
    (∃ linked, linkDefinitions around entities = .ok linked) ↔
      ∀ entity ∈ entities, ∃ linked, linkFree around entity = .ok linked := by
  refine ⟨?_, exists_linkDefinitions⟩
  rintro ⟨⟨linked, diagnostics⟩, h⟩ entity hentity
  obtain ⟨_, -, own, hown, -⟩ := (forall₂_linkDefinitions h).exists_of_mem_left hentity
  exact ⟨_, hown⟩

/-- Whether the declarations in a state can be linked is decided by the declared ones. -/
theorem Kept.exists_linkDefinitions_iff {rounds : List (List String)}
    (hkept : Kept graph rounds resolver) (hvalid : graph.Valid)
    (hfree : resolver.surroundings.IsTame)
    (hrigid : ∀ entity ∈ graph.entities, ∀ definition ∈ entity.definition, definition.IsRigid)
    (harguments : ∀ entity ∈ graph.entities, ∀ definition ∈ entity.definition,
      ∀ pattern arguments, template pattern (some arguments) ∈ definition.nodes →
        Fields.isReserved arguments = false) :
    (∃ linked, linkDefinitions resolver.surroundings resolver.partition.toGraph.entities =
      .ok linked) ↔
      ∀ entity ∈ graph.entities, entity.fullName ∈ Entity.names resolver.free →
        ∀ definition ∈ entity.definition, definition.isWellFormed = true := by
  have horder : resolver.partition.order = graph.names := hkept.order
  rw [Resolver.exists_linkDefinitions_iff]
  constructor
  · intro h origin horigin
    obtain ⟨value, hvalue⟩ := (hkept.accounts hvalid).declared origin horigin
    have hmem : origin.withReference value ∈ resolver.partition.toGraph.entities :=
      List.mem_filterMap.2 ⟨origin.fullName, horder ▸ Entity.fullName_mem_names horigin, hvalue⟩
    exact (exists_linkFree_iff hfree (hrigid origin horigin) (harguments origin horigin) value).1
      (h _ hmem)
  · intro h entity hentity
    obtain ⟨origin, horigin, hsame⟩ := hkept.declared_toGraph hentity
    rw [hsame]
    exact (exists_linkFree_iff hfree (hrigid origin horigin) (harguments origin horigin) _).2
      (h origin horigin)

end Resolver

namespace ModuleGraph

open Value

variable {config : Config} {catalog : Catalog} {graph : ModuleGraph}

/-! ## What is declared -/

/-- The conditions under which the ending of resolution can be read off from what is declared: what
is malformed stays so, no pass adds a dependency, and added arguments bind nothing that was asked
for. -/
structure IsRigid (config : Config) (graph : ModuleGraph) : Prop where
  valid : graph.Valid
  mark : config.preserveMarker ≠ ""
  markers : config.HasPlainMarkers
  regular : graph.IsRegular config
  rigid : ∀ entity ∈ graph.entities, ∀ v ∈ entity.values, v.IsRigid
  arguments : ∀ entity ∈ graph.entities, ∀ v ∈ entity.values, ∀ pattern arguments,
    Value.template pattern (some arguments) ∈ v.nodes → Fields.isReserved arguments = false
  numbers : ∀ entity ∈ graph.entities, ∀ v ∈ entity.values, ∀ name ∈ v.uses config,
    ¬ config.IsSynthetic name

/-- A reference is malformed, or the declaration of an entity that becomes free. -/
inductive IsBroken (config : Config) (graph : ModuleGraph) : Prop
  | reference {entity : Entity} (hentity : entity ∈ graph.entities)
      (h : entity.reference.isWellFormed = false)
  | definition {entity : Entity} {definition : Value} {rank : Nat}
      (hentity : entity ∈ graph.entities) (hrank : graph.HasRank config entity.fullName rank)
      (hdefinition : entity.definition = some definition) (h : definition.isWellFormed = false)

namespace IsRigid

theorem starts (h : graph.IsRigid config)
    (hwell : ∀ entity ∈ graph.entities, entity.reference.isWellFormed = true) :
    Resolver.Starts config graph :=
  ⟨h.valid, h.mark, h.markers, hwell, h.regular⟩

theorem isDeclarative (h : graph.IsRigid config)
    (hwell : ∀ entity ∈ graph.entities, ∀ v ∈ entity.values, v.isWellFormed = true) :
    graph.IsDeclarative config where
  toStarts := h.starts fun entity hentity => hwell entity hentity _ List.mem_cons_self
  ordinary entity hentity v hv := ⟨hwell entity hentity v hv, h.arguments entity hentity v hv⟩
  numbers := h.numbers

/-- A malformed reference ends the first sweep, unless the module cannot be split before. -/
theorem structural_of_reference (h : graph.IsRigid config) {entity : Entity}
    (hentity : entity ∈ graph.entities) (hmalformed : entity.reference.isWellFormed = false)
    (catalog : Catalog) : ∃ e, graph.resolve config catalog = .error (.structural e) := by
  cases hpartition : graph.partition with
  | error e => exact ⟨e, by rw [ModuleGraph.resolve, hpartition]⟩
  | ok partition =>
      rcases hstep : (Resolver.start config catalog partition).step with ⟨next, e | n⟩
      · have hwaiting : (Resolver.start config catalog partition).waiting.isEmpty = false := by
          refine Bool.eq_false_iff.2 fun hempty => ?_
          rw [Resolver.step_of_passes (by simp [List.isEmpty_iff.1 hempty])] at hstep
          simp at hstep
        refine ⟨e, ?_⟩
        rw [ModuleGraph.resolve, hpartition]
        simp only [Resolver.resolve, Resolver.run_of_error hwaiting hstep]
      · have hwell := Resolver.isWellFormed_of_step hpartition
          (fun entity hentity => h.rigid entity hentity _ List.mem_cons_self) hstep entity hentity
        simp [hmalformed] at hwell

/-- Where the references are well-formed, a malformed declaration ends the resolution if its entity
becomes free. -/
theorem structural_iff_of_starts (h : graph.IsRigid config)
    (hwell : ∀ entity ∈ graph.entities, entity.reference.isWellFormed = true) (catalog : Catalog) :
    (∃ e, graph.resolve config catalog = .error (.structural e)) ↔
      ∃ entity ∈ graph.entities, (∃ rank, graph.HasRank config entity.fullName rank) ∧
        ∃ definition ∈ entity.definition, definition.isWellFormed = false := by
  have hstarts := h.starts hwell
  obtain ⟨partition, hpartition, hresolve⟩ := hstarts.exists_partition catalog
  obtain ⟨hnone, rounds, hkept, hfollows⟩ := Resolver.exists_followsRanks hstarts
    (fun entity hentity => h.numbers entity hentity _ List.mem_cons_self) hpartition catalog
  obtain ⟨last, hrun⟩ : ∃ last, (Resolver.start config catalog partition).run = (last, none) :=
    ⟨_, Prod.ext rfl hnone⟩
  rw [hrun] at hkept hfollows
  have hstart : Resolver.Ordinary graph (Resolver.start config catalog partition) :=
    Resolver.ordinary_start (fun entity hentity => ⟨hwell entity hentity,
      h.arguments entity hentity _ List.mem_cons_self⟩) hpartition
  obtain ⟨final, hfinal, rfl, -⟩ := Resolver.run_invariant Resolver.Ordinary.step hstart hrun
  have hdefinition {entity : Entity} {definition : Value} (hsome : definition ∈ entity.definition) :
      definition ∈ entity.values :=
    List.mem_cons_of_mem _ (Option.mem_toList.2 hsome)
  rw [hresolve, Resolver.resolve_of_run hrun, Resolver.structural_conclude_iff,
    hkept.exists_linkDefinitions_iff h.valid hfinal.isTame
      (fun entity hentity definition hsome => h.rigid entity hentity _ (hdefinition hsome))
      fun entity hentity definition hsome => h.arguments entity hentity _ (hdefinition hsome)]
  simp only [hfollows.mem_free_iff hkept h.valid.nodup, not_forall, exists_prop,
    Bool.not_eq_true]

/-- Resolution ends with a structural error if and only if a reference is malformed, or the
declaration of an entity that becomes free. -/
theorem structural_iff (h : graph.IsRigid config) (catalog : Catalog) :
    (∃ e, graph.resolve config catalog = .error (.structural e)) ↔ graph.IsBroken config := by
  by_cases hwell : ∀ entity ∈ graph.entities, entity.reference.isWellFormed = true
  · rw [h.structural_iff_of_starts hwell]
    constructor
    · rintro ⟨entity, hentity, ⟨rank, hrank⟩, definition, hdefinition, hmalformed⟩
      exact .definition hentity hrank hdefinition hmalformed
    · rintro (⟨hentity, hmalformed⟩ | ⟨hentity, hrank, hdefinition, hmalformed⟩)
      · exact absurd (hmalformed.symm.trans (hwell _ hentity)) nofun
      · exact ⟨_, hentity, ⟨_, hrank⟩, _, hdefinition, hmalformed⟩
  · simp only [not_forall, Bool.not_eq_true] at hwell
    obtain ⟨entity, hentity, hmalformed⟩ := hwell
    exact iff_of_true (h.structural_of_reference hentity hmalformed catalog)
      (.reference hentity hmalformed)

/-- A malformed declaration is not met if its entity waits for something that is missing. -/
example :
    ([.string "a", .ref "B"].map fun reference => Ending.of (resolve {} .permissive
      ⟨"Main", [{ Entity.value "A" reference with
        definition := some (.map [("Ref", .list [])]) }]⟩)) = [.structural, .reported] := by
  decide +kernel

/-- What is resolved was well-formed. -/
theorem isWellFormed_of_resolve (h : graph.IsRigid config) {resolved : ModuleGraph} {stats : Stats}
    (hresolve : graph.resolve config catalog = .ok (resolved, stats)) :
    ∀ entity ∈ graph.entities, ∀ v ∈ entity.values, v.isWellFormed = true := by
  have hreferences : ∀ entity ∈ graph.entities, entity.reference.isWellFormed = true := by
    by_contra hmalformed
    simp only [not_forall, Bool.not_eq_true] at hmalformed
    obtain ⟨entity, hentity, hmalformed⟩ := hmalformed
    obtain ⟨e, he⟩ := h.structural_of_reference hentity hmalformed catalog
    simp [hresolve] at he
  have hstarts := h.starts hreferences
  obtain ⟨partition, hpartition, hparts⟩ := exists_partition_of_resolve hresolve
  obtain ⟨final, hfinal, hend⟩ := Resolver.resolve_invariant (fun h hstep => h.step hstarts hstep)
    (Resolver.advances_start hstarts hpartition catalog) hparts
  obtain ⟨rounds, hkept⟩ := hfinal.kept
  intro entity hentity
  refine Entity.forall_mem_values.2 ⟨hreferences entity hentity, fun definition hdefinition => ?_⟩
  obtain ⟨w, outcome, happly⟩ := hend.exists_apply hkept h.valid hentity hdefinition
  have hv : definition ∈ entity.values := by simp [Entity.values, hdefinition]
  exact isWellFormed_iff.2 (wellFormed_of_rewrites (h.rigid entity hentity definition hv)
    (Surroundings.apply_eq_ok_iff.1 happly))

/-- Resolution succeeds if and only if everything is well-formed, no entity depends on itself, and
everything that is asked for is there. -/
theorem resolves_iff (h : graph.IsRigid config) (catalog : Catalog) :
    (∃ result, graph.resolve config catalog = .ok result) ↔
      (∀ entity ∈ graph.entities, ∀ v ∈ entity.values, v.isWellFormed = true) ∧
        graph.IsLinkable config catalog := by
  constructor
  · rintro ⟨result, hresult⟩
    have hwell := h.isWellFormed_of_resolve hresult
    exact ⟨hwell, (exists_resolve_iff (h.isDeclarative hwell) catalog).1 ⟨_, hresult⟩⟩
  · rintro ⟨hwell, hlinkable⟩
    exact (exists_resolve_iff (h.isDeclarative hwell) catalog).2 hlinkable

end IsRigid

end ModuleGraph

end StackLinker
