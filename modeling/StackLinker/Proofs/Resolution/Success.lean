import StackLinker.Proofs.Dependency.Lasting
import StackLinker.Proofs.Dependency.Soundness
import StackLinker.Proofs.Resolution.Interleaving
import StackLinker.Proofs.Resolution.Linked
import StackLinker.Proofs.Resolution.OneShot
import StackLinker.Proofs.Resolution.Ordinary
import StackLinker.Proofs.Resolution.Reordering

/-!
# When resolution succeeds

Whether a module is resolved can be read off from what is declared: no entity may depend on itself,
and for everything that references and declarations ask for there has to be an entity that has it
(`ModuleGraph.IsLinkable`, `exists_resolve_iff`).

## Strategy

* From success to the declarations: what a declared reference asks for, and is not granted yet, the
  present reference still asks for (`Tracks.asks`).  An entity only becomes free when nothing that
  it asks for is denied, so everything that it was declared to ask for has been granted by then, on
  behalf of entities that became free before it.
* Back again: every step of a run promotes something, as the module is closed and acyclic, and
  nothing that a pass could refuse is ever asked for.
-/

namespace StackLinker

/-- A module with well-formed references can be split, and what comes of it is what comes of its
parts. -/
theorem Resolver.Starts.exists_partition {config : Config} {graph : ModuleGraph}
    (h : Resolver.Starts config graph) (catalog : Catalog) :
    ∃ partition, graph.partition = .ok partition ∧
      graph.resolve config catalog = Resolver.resolve config catalog partition := by
  obtain ⟨parts, hparts⟩ := @Entity.exists_split graph.entities fun entity hentity hnull =>
    Value.null_notMem_nodes_of_isWellFormed (h.wellFormed entity hentity)
      (hnull ▸ Value.self_mem_nodes _)
  have hpartition : graph.partition = .ok ⟨graph.name, graph.names, parts.1, parts.2⟩ := by
    rw [ModuleGraph.partition, hparts]
    rfl
  exact ⟨_, hpartition, by rw [ModuleGraph.resolve, hpartition]⟩

namespace ModuleGraph

open Value

variable {config : Config} {catalog : Catalog} {graph : ModuleGraph} {placeholder : Placeholder}

/-! ## Modules that can be linked -/

/-- The module has the entity that is asked for, and the entity offers the attribute, if one is
asked for. -/
def Meets (catalog : Catalog) (graph : ModuleGraph) (placeholder : Placeholder) : Prop :=
  ∃ target ∈ graph.entities, target.fullName = placeholder.name ∧
    ∀ attr ∈ placeholder.attr, target.offers catalog attr = true

/-- No entity depends on itself, and everything that is asked for is there. -/
structure IsLinkable (config : Config) (catalog : Catalog) (graph : ModuleGraph) : Prop where
  acyclic : graph.IsAcyclic config
  meets : ∀ entity ∈ graph.entities, ∀ v ∈ entity.values, ∀ placeholder ∈ v.requested,
    config.isExempt placeholder.name = false → graph.Meets catalog placeholder

/-- The conditions under which the result of resolution can be read off from what is declared: no
pass adds a dependency or meets a structural error, and added arguments bind nothing that was asked
for. -/
structure IsDeclarative (config : Config) (graph : ModuleGraph) : Prop
    extends Resolver.Starts config graph where
  ordinary : ∀ entity ∈ graph.entities, ∀ v ∈ entity.values, v.IsOrdinary
  numbers : ∀ entity ∈ graph.entities, ∀ v ∈ entity.values, ∀ name ∈ v.uses config,
    ¬ config.IsSynthetic name

theorem Meets.mem_names (h : graph.Meets catalog placeholder) : placeholder.name ∈ graph.names := by
  obtain ⟨target, htarget, hname, -⟩ := h
  exact hname ▸ Entity.fullName_mem_names htarget

theorem IsLinkable.isClosed (h : graph.IsLinkable config catalog) : graph.IsClosed config := by
  rintro a b ⟨entity, hentity, -, huses⟩
  obtain ⟨placeholder, hrequested, rfl, hexempt⟩ := mem_uses_iff_requested.1 huses
  exact (h.meets entity hentity _ List.mem_cons_self placeholder hrequested hexempt).mem_names

/-- Where everything that is asked for is there, no attribute is refused. -/
theorem IsLinkable.offers (hnodup : graph.names.Nodup) (h : graph.IsLinkable config catalog)
    {entity target : Entity} (hentity : entity ∈ graph.entities)
    (hrequested : placeholder ∈ entity.reference.requested)
    (hexempt : config.isExempt placeholder.name = false) {attr : String}
    (hattr : attr ∈ placeholder.attr) (htarget : target ∈ graph.entities)
    (hname : target.fullName = placeholder.name) : target.offers catalog attr = true := by
  obtain ⟨other, hother, hsame, hoffers⟩ :=
    h.meets entity hentity _ List.mem_cons_self placeholder hrequested hexempt
  obtain rfl := List.inj_on_of_nodup_map hnodup htarget hother (hname.trans hsame.symm)
  exact hoffers attr hattr

namespace IsDeclarative

variable {entity : Entity} {v : Value}

/-- What is asked for is not the name of an added argument. -/
theorem not_isSynthetic (h : graph.IsDeclarative config) (hentity : entity ∈ graph.entities)
    (hv : v ∈ entity.values) (hrequested : placeholder ∈ v.requested)
    (hexempt : config.isExempt placeholder.name = false) :
    ¬ config.IsSynthetic placeholder.name :=
  h.numbers entity hentity v hv _ (mem_uses_iff_requested.2 ⟨placeholder, hrequested, rfl, hexempt⟩)

theorem not_isSynthetic_of_isSpliced (h : graph.IsDeclarative config) (name : String)
    (hname : graph.IsSpliced config name) : ¬ config.IsSynthetic name := by
  obtain ⟨entity, hentity, huses⟩ := hname.exists_use
  exact h.numbers entity hentity _ List.mem_cons_self name huses

end IsDeclarative

end ModuleGraph

namespace Resolver

open Value

variable {config : Config} {catalog : Catalog} {graph resolved : ModuleGraph}
  {resolver next : Resolver} {partition : Partition} {n : Nat} {rounds : List (List String)}
  {placeholder : Placeholder} {stats : Stats}

/-- What is granted in a state is there in the module. -/
theorem Kept.meets (hkept : Kept graph rounds resolver)
    (hexempt : resolver.config.isExempt placeholder.name = false)
    (h : ¬ resolver.surroundings.IsDenied placeholder) :
    graph.Meets resolver.catalog placeholder := by
  have hsome : (resolver.surroundings.grant? placeholder).isSome = true := by
    by_contra hnone
    exact h ⟨hexempt, by simpa using hnone⟩
  obtain ⟨target, hmeaning, hoffers⟩ := Surroundings.isSome_grant?_iff.1 hsome
  have hfind := (Surroundings.meaning_eq_free_iff.1 hmeaning).2
  obtain ⟨origin, horigin, hsame⟩ :=
    hkept.declared target (List.mem_append_left _ (Entity.mem_of_find? hfind))
  have hname := Entity.fullName_of_find? hfind
  rw [hsame] at hname hoffers
  exact ⟨origin, horigin, hname, hoffers⟩

theorem Kept.nodup_free (hkept : Kept graph rounds resolver) (hnodup : graph.names.Nodup) :
    (Entity.names resolver.free).Nodup := by
  have hall := hkept.perm.nodup_iff.2 hnodup
  rw [Entity.names_append] at hall
  exact (List.nodup_append.1 hall).1

/-- A name that is not exempt means the free entity that has it. -/
theorem Kept.meaning_eq (hkept : Kept graph rounds resolver) (hnodup : graph.names.Nodup)
    {entity : Entity} (hfree : entity ∈ resolver.free)
    (hexempt : resolver.config.isExempt entity.fullName = false) :
    resolver.surroundings.meaning entity.fullName = .free entity :=
  Surroundings.meaning_eq_free_iff.2
    ⟨hexempt, (Entity.find?_eq_some_iff (hkept.nodup_free hnodup)).2 ⟨hfree, rfl⟩⟩

/-- Where nothing is bound, what is there in the module is granted. -/
theorem Kept.not_isDenied (hnodup : graph.names.Nodup) (hkept : Kept graph rounds resolver)
    (hwaiting : resolver.waiting = []) (h : graph.Meets resolver.catalog placeholder) :
    ¬ resolver.surroundings.IsDenied placeholder := by
  rintro ⟨hexempt, hgrant⟩
  obtain ⟨target, htarget, hname, hoffers⟩ := h
  obtain ⟨value, hfree⟩ := hkept.exists_free hnodup hwaiting htarget
  rw [← hname] at hexempt
  have hmeaning := hkept.meaning_eq hnodup hfree hexempt
  have hsome := Surroundings.isSome_grant?_iff.2 ⟨_, hname ▸ hmeaning, hoffers⟩
  simp [hgrant] at hsome

/-! ## What is still asked for -/

/-- What a bound entity was declared to ask for, and what is denied, it still asks for. -/
def Asks (graph : ModuleGraph) (resolver : Resolver) : Prop :=
  ∀ pending ∈ resolver.waiting, ∀ origin ∈ graph.entities, origin.fullName = pending.name →
    ∀ placeholder ∈ origin.reference.requested, resolver.surroundings.IsDenied placeholder →
      placeholder ∈ pending.entity.reference.requested

theorem asks_start (hnodup : graph.names.Nodup) (h : graph.partition = .ok partition)
    (catalog : Catalog) : Asks graph (start config catalog partition) := by
  intro pending hpending origin horigin hname placeholder hrequested _
  have hbound : pending.entity ∈ (start config catalog partition).bound :=
    List.mem_map_of_mem hpending
  rwa [← declared_eq_of_start hnodup h horigin (List.mem_append_right _ hbound) hname]

/-- A pass leaves what is denied where it is asked for. -/
theorem Asks.of_apply (hstarts : Starts config graph)
    (hnumbers : ∀ entity ∈ graph.entities, ∀ name ∈ entity.reference.uses config,
      ¬ config.IsSynthetic name)
    (hadvances : Advances config graph resolver) (h : Asks graph resolver) {pending : Pending}
    (hpending : pending ∈ resolver.waiting) {value : Value} {outcome : Outcome}
    (happly : resolver.surroundings.apply pending.entity.fullName pending.entity.reference =
      .ok (value, outcome)) {origin : Entity} (horigin : origin ∈ graph.entities)
    (hname : origin.fullName = pending.name)
    (hrequested : placeholder ∈ origin.reference.requested)
    (hdenied : resolver.surroundings.IsDenied placeholder) : placeholder ∈ value.requested := by
  have hconfig : resolver.surroundings.config = config := hadvances.config_eq
  have hexempt : config.isExempt placeholder.name = false := hconfig ▸ hdenied.exempt
  have hnumber := hnumbers origin horigin placeholder.name
    (mem_uses_iff_requested.2 ⟨placeholder, hrequested, rfl, hexempt⟩)
  obtain ⟨place, hrequest⟩ := mem_requested_iff.1
    (h pending hpending origin horigin hname placeholder hrequested hdenied)
  exact mem_requested_iff.2 ⟨place, Surroundings.requests_of_rewrites (hadvances.calm hstarts)
    (hadvances.tame_pending hpending) hdenied (hconfig.symm ▸ hnumber)
    (Surroundings.apply_eq_ok_iff.1 happly) hrequest⟩

theorem Asks.step (hstarts : Starts config graph)
    (hnumbers : ∀ entity ∈ graph.entities, ∀ name ∈ entity.reference.uses config,
      ¬ config.IsSynthetic name)
    (hadvances : Advances config graph resolver) (h : Asks graph resolver)
    (hstep : resolver.step = (next, .ok n)) : Asks graph next := by
  intro kept hkept origin horigin hname placeholder hrequested hdenied
  obtain ⟨pending, hpending, value, outcome, happly, -, rfl⟩ := of_mem_waiting_step hstep hkept
  exact h.of_apply hstarts hnumbers hadvances hpending happly horigin hname hrequested
    ((precedes_step hstep).isDenied hdenied)

/-! ## From success to the declarations -/

/-- What the steps of a resolver preserve while no attribute of a promoted entity is refused. -/
structure Tracks (config : Config) (graph : ModuleGraph) (resolver : Resolver) : Prop where
  asks : Asks graph resolver
  /-- Nothing is denied that a free entity was declared to ask for. -/
  satisfies : ∀ entity ∈ resolver.free, ∀ origin ∈ graph.entities,
    origin.fullName = entity.fullName → resolver.surroundings.Satisfies origin.reference
  ordered : IsOrdered config graph resolver.free

theorem tracks_start (hnodup : graph.names.Nodup) (h : graph.partition = .ok partition)
    (catalog : Catalog) : Tracks config graph (start config catalog partition) := by
  have hquiet : ∀ entity ∈ (start config catalog partition).free, ∀ origin ∈ graph.entities,
      origin.fullName = entity.fullName → origin.reference.requested = [] := by
    intro entity hentity origin horigin hname
    obtain rfl := declared_eq_of_start hnodup h horigin (List.mem_append_left _ hentity) hname
    refine List.eq_nil_iff_forall_not_mem.2 fun placeholder hrequested => ?_
    obtain ⟨place, hrequest⟩ := mem_requested_iff.1 hrequested
    exact not_requests_of_classify (classify_of_start h hentity) hrequest
  refine ⟨asks_start hnodup h catalog, ?satisfies, ?ordered⟩
  case satisfies =>
    intro entity hentity origin horigin hname placeholder hrequested
    simp [hquiet entity hentity origin horigin hname] at hrequested
  case ordered =>
    refine @isOrdered_append config graph [] _ (by simp [IsOrdered]) fun entity hentity other => ?_
    rintro ⟨origin, horigin, hname, huses⟩
    obtain ⟨placeholder, hrequested, -⟩ := mem_uses_iff_requested.1 huses
    simp [hquiet entity hentity origin horigin hname] at hrequested

section Step

variable {pending : Pending} {value : Value} {outcome : Outcome} {origin : Entity}

/-- An entity in which a pass notes nothing was declared to ask for nothing that is denied. -/
theorem Tracks.satisfies_of_isClean (hgraph : graph.IsDeclarative config)
    (hproceeds : Proceeds config graph resolver) (h : Tracks config graph resolver)
    (hpending : pending ∈ resolver.waiting)
    (happly : resolver.surroundings.apply pending.entity.fullName pending.entity.reference =
      .ok (value, outcome)) (hclean : outcome.IsClean) (horigin : origin ∈ graph.entities)
    (hname : origin.fullName = pending.name) :
    resolver.surroundings.Satisfies origin.reference := by
  have hconfig : resolver.surroundings.config = config := hproceeds.advances.config_eq
  intro placeholder hrequested hdenied
  obtain ⟨place, hrequest⟩ := mem_requested_iff.1
    (h.asks pending hpending origin horigin hname placeholder hrequested hdenied)
  have hnumber := hgraph.not_isSynthetic horigin List.mem_cons_self hrequested
    (hconfig ▸ hdenied.exempt)
  exact Surroundings.noted_of_rewrites (hproceeds.advances.tame_pending hpending) hdenied
    (hconfig.symm ▸ hnumber) (Surroundings.apply_eq_ok_iff.1 happly) hrequest hclean

theorem Tracks.step (hgraph : graph.IsDeclarative config)
    (hproceeds : Proceeds config graph resolver) (h : Tracks config graph resolver)
    (hstep : resolver.step = (next, .ok n)) (hdiagnostics : next.diagnostics = []) :
    Tracks config graph next := by
  have hconfig : resolver.surroundings.config = config := hproceeds.advances.config_eq
  have hlater := precedes_step hstep
  refine ⟨h.asks.step hgraph.toStarts (fun entity hentity => hgraph.numbers entity hentity _
    List.mem_cons_self) hproceeds.advances hstep, ?satisfies, ?ordered⟩
  case satisfies =>
    intro entity hentity origin horigin hname
    refine hlater.satisfies ?_
    rcases isClean_of_mem_free_step hstep hdiagnostics hentity with
      hold | ⟨pending, hpending, value, outcome, happly, hclean, rfl⟩
    · exact h.satisfies entity hold origin horigin hname
    · exact h.satisfies_of_isClean hgraph hproceeds hpending happly hclean horigin hname
  case ordered =>
    rw [free_step hstep]
    refine isOrdered_append h.ordered fun entity hentity other => ?_
    rintro ⟨origin, horigin, hname, huses⟩
    obtain ⟨promoted, hpromoted, rfl⟩ := List.mem_map.1 hentity
    obtain ⟨pending, hpending, hpromotes⟩ := List.mem_filterMap.1 hpromoted
    obtain ⟨value, outcome, happly, hresolved, rfl⟩ := Surroundings.promotes?_eq_some hpromotes
    have hinvalid := invalid_subset_diagnostics_step hstep hpending happly hresolved
    rw [hdiagnostics, List.subset_nil] at hinvalid
    have hsatisfies := h.satisfies_of_isClean hgraph hproceeds hpending happly
      ⟨Outcome.isResolved_iff.1 hresolved, hinvalid⟩ horigin hname
    -- What is granted belongs to an entity that is free already.
    obtain ⟨placeholder, hrequested, rfl, hexempt⟩ := mem_uses_iff_requested.1 huses
    have hsome : (resolver.surroundings.grant? placeholder).isSome = true := by
      by_contra hnone
      exact hsatisfies placeholder hrequested ⟨hconfig.symm ▸ hexempt, by simpa using hnone⟩
    obtain ⟨target, hmeaning, -⟩ := Surroundings.isSome_grant?_iff.1 hsome
    exact Surroundings.mem_names_of_meaning hmeaning

end Step

/-- What is known of the states of a run on a module. -/
structure Tracked (config : Config) (catalog : Catalog) (graph : ModuleGraph)
    (resolver : Resolver) : Prop where
  proceeds : Proceeds config graph resolver
  catalog_eq : resolver.catalog = catalog
  tracks : resolver.diagnostics = [] → Tracks config graph resolver

theorem tracked_start (hgraph : graph.IsDeclarative config) (h : graph.partition = .ok partition)
    (catalog : Catalog) : Tracked config catalog graph (start config catalog partition) :=
  ⟨proceeds_start hgraph.toStarts h catalog, rfl, fun _ =>
    tracks_start hgraph.valid.nodup h catalog⟩

theorem Tracked.step (hgraph : graph.IsDeclarative config)
    (h : Tracked config catalog graph resolver) (hstep : resolver.step = (next, .ok n)) :
    Tracked config catalog graph next where
  proceeds := h.proceeds.step hgraph.toStarts hgraph.not_isSynthetic_of_isSpliced hstep
  catalog_eq := (precedes_step hstep).catalog.trans h.catalog_eq
  tracks hdiagnostics := (h.tracks (diagnostics_eq_nil_of_step hstep hdiagnostics)).step hgraph
    h.proceeds hstep hdiagnostics

/-- A module that is resolved can be linked. -/
theorem isLinkable_of_resolve (hgraph : graph.IsDeclarative config)
    (hpartition : graph.partition = .ok partition)
    (h : resolve config catalog partition = .ok (resolved, stats)) :
    graph.IsLinkable config catalog := by
  obtain ⟨final, hfinal, hend⟩ := resolve_invariant (fun h hstep => h.step hgraph hstep)
    (tracked_start hgraph hpartition catalog) h
  obtain ⟨rounds, hkept⟩ := hfinal.proceeds.advances.kept
  have hconfig : final.surroundings.config = config := hfinal.proceeds.advances.config_eq
  have htracks := hfinal.tracks hend.diagnostics
  refine ⟨?acyclic, fun origin horigin v hv placeholder hrequested hexempt => ?meets⟩
  case acyclic =>
    have hperm := hkept.perm
    rw [bound, hend.waiting, List.map_nil, List.append_nil] at hperm
    exact (htracks.ordered.closed_and_acyclic hperm).2
  case meets =>
    obtain ⟨entity, -, value, -, hfree, hlink⟩ :=
      (hend.forall₂_declared hkept hgraph.valid).exists_of_mem_left horigin
    have hsatisfies : final.surroundings.Satisfies v := by
      rcases List.mem_cons.1 hv with rfl | hv
      · exact htracks.satisfies _ hfree origin horigin rfl
      · have hdeclared : origin.definition = some v := by simpa using hv
        obtain ⟨linked, outcome, happly, hclean, -⟩ :=
          isClean_linkFree hend.bound_surroundings hfree hlink hdeclared
        refine Surroundings.satisfies_of_isClean
          ((hgraph.ordinary origin horigin v (List.mem_cons_of_mem _ hv)).tame config) ?_
          (Surroundings.apply_eq_ok_iff.1 happly) hclean
        rw [hconfig]
        exact fun placeholder hrequested hexempt => hgraph.not_isSynthetic horigin
          (List.mem_cons_of_mem _ hv) hrequested hexempt
    have hexempt' : final.surroundings.config.isExempt placeholder.name = false := hconfig ▸ hexempt
    exact hfinal.catalog_eq ▸ hkept.meets hexempt' (hsatisfies placeholder hrequested)

/-! ## Back again -/

/-- Declarations are linked without findings if each of them is. -/
theorem exists_linkDefinitions_nil {around : Surroundings} {entities : List Entity}
    (h : ∀ entity ∈ entities, ∃ linked, linkFree around entity = .ok (linked, [])) :
    ∃ linked, linkDefinitions around entities = .ok (linked, []) := by
  induction entities with
  | nil => exact ⟨[], rfl⟩
  | cons entity rest ih =>
      obtain ⟨own, hown⟩ := h entity List.mem_cons_self
      obtain ⟨others, hothers⟩ := ih fun other hother => h other (List.mem_cons_of_mem _ hother)
      exact ⟨own :: others, by rw [linkDefinitions, hown, hothers]; rfl⟩

/-- Where nothing is bound and everything that is asked for is there, declarations are linked
without findings. -/
theorem exists_linkFree (hgraph : graph.IsDeclarative config)
    (hlinkable : graph.IsLinkable config catalog) (hordinary : Ordinary graph resolver)
    (hconfig : resolver.config = config) (hcatalog : resolver.catalog = catalog)
    (hwaiting : resolver.waiting = []) {entity : Entity}
    (hentity : entity ∈ resolver.partition.toGraph.entities) :
    ∃ linked, linkFree resolver.surroundings entity = .ok (linked, []) := by
  obtain ⟨rounds, hkept⟩ := hordinary.kept
  obtain ⟨origin, horigin, hsame⟩ := hkept.declared_toGraph hentity
  unfold linkFree linkDefinition
  split
  · split
    · exact ⟨_, rfl⟩
    · rename_i definition hdefinition
      rw [hsame, Entity.definition_withReference] at hdefinition
      have hv : definition ∈ origin.values := by simp [Entity.values, hdefinition]
      have htame := (hgraph.ordinary origin horigin definition hv).tame
        resolver.surroundings.config
      obtain ⟨w, outcome, happly, -⟩ := hordinary.isTame.exists_apply htame entity.fullName
      have hbound : resolver.surroundings.bound = [] := by
        simp [surroundings, bound, hwaiting]
      have hclean := Surroundings.isClean_of_satisfies htame hbound
        (fun placeholder hrequested hdenied => hkept.not_isDenied hgraph.valid.nodup hwaiting
          (hcatalog.symm ▸ hlinkable.meets origin horigin definition hv placeholder hrequested
            (hconfig ▸ hdenied.exempt)) hdenied) happly
      have hmissing : outcome.missing = [] := by
        simpa using (List.append_eq_nil_iff.1 (List.map_eq_nil_iff.1 hclean.1)).2
      exact ⟨_, by rw [happly, Except.map, hmissing, hclean.2]; rfl⟩
  · exact ⟨_, rfl⟩

/-- What the steps of a resolver preserve where everything that is asked for is there. -/
structure Flawless (config : Config) (catalog : Catalog) (graph : ModuleGraph)
    (resolver : Resolver) : Prop where
  faithful : Faithful config catalog graph resolver
  ordinary : Ordinary graph resolver
  diagnostics : resolver.diagnostics = []

theorem flawless_start (hgraph : graph.IsDeclarative config) (h : graph.partition = .ok partition)
    (catalog : Catalog) : Flawless config catalog graph (start config catalog partition) :=
  ⟨faithful_start hgraph.toStarts h catalog, ordinary_start (fun entity hentity =>
    hgraph.ordinary entity hentity _ List.mem_cons_self) h, rfl⟩

theorem Flawless.step (hgraph : graph.IsDeclarative config)
    (hlinkable : graph.IsLinkable config catalog) (h : Flawless config catalog graph resolver)
    (hstep : resolver.step = (next, .ok n)) : Flawless config catalog graph next := by
  have hoffers : ∀ entity ∈ graph.entities, ∀ placeholder ∈ entity.reference.requested,
      config.isExempt placeholder.name = false → ∀ attr ∈ placeholder.attr,
        ∀ target ∈ graph.entities, target.fullName = placeholder.name →
          target.offers catalog attr = true :=
    fun entity hentity placeholder hrequested hexempt attr hattr target htarget hname =>
      hlinkable.offers hgraph.valid.nodup hentity hrequested hexempt hattr htarget hname
  refine ⟨h.faithful.step hgraph.toStarts (fun entity hentity _ => hoffers entity hentity) hstep,
    h.ordinary.step hstep, ?_⟩
  obtain ⟨-, -, rfl⟩ := step_eq_ok hstep
  refine List.append_eq_nil_iff.2 ⟨h.diagnostics, List.flatMap_eq_nil_iff.2 ?_⟩
  intro promoted hpromoted
  obtain ⟨pending, hpending, hpromotes⟩ := List.mem_filterMap.1 hpromoted
  obtain ⟨value, outcome, happly, -, rfl⟩ := Surroundings.promotes?_eq_some hpromotes
  exact h.faithful.invalid_eq_nil hpending happly fun entity hentity _ => hoffers entity hentity

theorem Flawless.exists_step (hgraph : graph.IsDeclarative config)
    (hlinkable : graph.IsLinkable config catalog) (h : Flawless config catalog graph resolver)
    (hwaiting : resolver.waiting ≠ []) :
    ∃ next n, resolver.step = (next, .ok n) ∧ n ≠ 0 ∧ Flawless config catalog graph next := by
  obtain ⟨next, n, hstep, hpromoted, -⟩ := h.faithful.advances.exists_step hgraph.toStarts
    hlinkable.isClosed hlinkable.acyclic hwaiting
  exact ⟨next, n, hstep, hpromoted, h.step hgraph hlinkable hstep⟩

/-- A module that can be linked is resolved. -/
theorem exists_resolve_of_isLinkable (hgraph : graph.IsDeclarative config)
    (hlinkable : graph.IsLinkable config catalog) (hpartition : graph.partition = .ok partition) :
    ∃ result, resolve config catalog partition = .ok result := by
  have hstart := flawless_start hgraph hpartition catalog
  obtain ⟨hnone, hwaiting, -⟩ :=
    run_complete (fun h hne => h.exists_step hgraph hlinkable hne) hstart
  obtain ⟨last, hrun⟩ : ∃ last, (start config catalog partition).run = (last, none) :=
    ⟨_, Prod.ext rfl hnone⟩
  rw [hrun] at hwaiting
  obtain ⟨final, hfinal, rfl, -⟩ :=
    run_invariant (fun h hstep => h.step hgraph hlinkable hstep) hstart hrun
  replace hwaiting : final.waiting = [] := hwaiting
  have hresolve : resolve config catalog partition = final.conclude :=
    (resolve_of_run hrun).trans rfl
  obtain ⟨linked, hlinked⟩ := exists_linkDefinitions_nil fun entity hentity =>
    exists_linkFree hgraph hlinkable hfinal.ordinary hfinal.faithful.advances.config_eq
      hfinal.faithful.catalog_eq hwaiting hentity
  rw [hresolve, conclude, hlinked]
  simp only [hfinal.diagnostics, hwaiting, List.append_nil]
  exact ⟨_, rfl⟩

end Resolver

/-- Resolution succeeds if and only if no entity depends on itself and everything that is asked for
is there. -/
theorem ModuleGraph.exists_resolve_iff {config : Config} {graph : ModuleGraph}
    (hgraph : graph.IsDeclarative config) (catalog : Catalog) :
    (∃ result, graph.resolve config catalog = .ok result) ↔ graph.IsLinkable config catalog := by
  obtain ⟨partition, hpartition, hresolve⟩ := hgraph.exists_partition catalog
  rw [hresolve]
  refine ⟨fun ⟨⟨resolved, stats⟩, h⟩ => ?_, fun h => ?_⟩
  · exact Resolver.isLinkable_of_resolve hgraph hpartition h
  · exact Resolver.exists_resolve_of_isLinkable hgraph h hpartition

end StackLinker
