import StackLinker.Proofs.Resolution.Accounting

/-!
# Resolutions that succeed

A run that settles with entities still bound has something to report (`unresolved_eq_nil`).  So a
resolution that hands back a module has made all entities free, without diagnostics, and has linked
their declarations without findings.  `Settles` collects this, and `resolve_invariant` carries an
invariant of the steps there.
-/

namespace StackLinker

/-! ## Reports -/

/-- Whether the latest pass over a bound entity left something in place. -/
def Pending.IsStuck (pending : Pending) : Prop :=
  ∃ outcome, pending.attempt = some outcome ∧ outcome.isResolved = false

/-- Entities that stay bound are reported. -/
theorem FailureReport.unresolved_eq_nil {waiting : List Pending}
    (hstuck : ∀ pending ∈ waiting, pending.IsStuck) (h : unresolved waiting = []) :
    waiting = [] := by
  refine List.eq_nil_iff_forall_not_mem.2 fun pending hpending => ?_
  obtain ⟨outcome, hattempt, hresolved⟩ := hstuck pending hpending
  simp only [unresolved, List.append_eq_nil_iff, List.flatMap_eq_nil_iff, List.map_eq_nil_iff,
    List.filterMap_eq_nil_iff] at h
  obtain ⟨⟨hown, hcycles⟩, hblocked⟩ := h
  have hmissing : outcome.missing = [] := by
    have := hown pending hpending
    simp only [Pending.ownDiagnostics, List.append_eq_nil_iff, List.map_eq_nil_iff,
      Pending.missing, hattempt] at this
    exact this.1
  have hbound : outcome.bound ≠ [] := by
    intro hbound
    simp [Outcome.isResolved, hbound, hmissing] at hresolved
  have hnone := hblocked pending hpending
  unfold blocked? at hnone
  split at hnone
  · rename_i hwaits
    exact hbound (by simpa [Pending.waitsOn, hattempt] using hwaits)
  · simp [hcycles, Pending.missing, hattempt, hmissing] at hnone

namespace Resolver

variable {config : Config} {catalog : Catalog} {resolver next last : Resolver} {n : Nat}
  {resolved : ModuleGraph} {stats : Stats}

/-- The entities that a step lets wait are stuck. -/
theorem isStuck_of_step (h : resolver.step = (next, .ok n)) :
    ∀ pending ∈ next.waiting, pending.IsStuck := by
  obtain ⟨-, -, rfl⟩ := step_eq_ok h
  intro pending hpending
  obtain ⟨before, -, hkeeps⟩ := List.mem_filterMap.1 hpending
  obtain ⟨value, outcome, -, hresolved, rfl⟩ := Surroundings.keeps?_eq_some hkeeps
  exact ⟨outcome, rfl, hresolved⟩

/-! ## Declarations -/

/-- Linking declarations goes through the entities one by one. -/
theorem forall₂_linkDefinitions {around : Surroundings} {entities linked : List Entity}
    {diagnostics : List Diagnostic}
    (h : linkDefinitions around entities = .ok (linked, diagnostics)) :
    List.Forall₂ (fun origin entity => ∃ own, linkFree around origin = .ok (entity, own) ∧
      own ⊆ diagnostics) entities linked := by
  induction entities generalizing linked diagnostics with
  | nil =>
      simp only [linkDefinitions, Except.ok.injEq, Prod.mk.injEq] at h
      rw [← h.1]
      exact .nil
  | cons first rest ih =>
      simp only [linkDefinitions] at h
      split at h
      · simp at h
      · rename_i done hdone
        cases hrest : linkDefinitions around rest with
        | error e => simp [hrest, Except.map] at h
        | ok others =>
            simp only [hrest, Except.map, Except.ok.injEq, Prod.mk.injEq] at h
            obtain ⟨rfl, rfl⟩ := h
            refine .cons ⟨done.2, hdone, List.subset_append_left _ _⟩ ((ih hrest).imp ?_)
            rintro origin entity ⟨own, hown, hsubset⟩
            exact ⟨own, hown, List.subset_append_of_subset_right _ hsubset⟩

/-- Linking the declaration of an entity leaves its name and its reference alone. -/
theorem eq_of_linkFree {around : Surroundings} {origin entity : Entity}
    {own : List Diagnostic} (h : linkFree around origin = .ok (entity, own)) :
    entity.fullName = origin.fullName ∧ entity.reference = origin.reference := by
  unfold linkFree linkDefinition at h
  split at h
  · split at h
    · simp only [Except.ok.injEq, Prod.mk.injEq] at h
      rw [← h.1]
      exact ⟨rfl, rfl⟩
    · rename_i definition _
      cases happly : around.apply origin.fullName definition with
      | error e => simp [happly, Except.map] at h
      | ok applied =>
          simp only [happly, Except.map, Except.ok.injEq, Prod.mk.injEq] at h
          rw [← h.1]
          exact ⟨rfl, rfl⟩
  · simp only [Except.ok.injEq, Prod.mk.injEq] at h
    rw [← h.1]
    exact ⟨rfl, rfl⟩

/-- A free entity without a declaration is left as it is; otherwise a pass goes over its
declaration. -/
theorem linkFree_eq_ok {around : Surroundings} {origin entity : Entity} {own : List Diagnostic}
    (horigin : origin ∈ around.free) (h : linkFree around origin = .ok (entity, own)) :
    (origin.definition = none ∧ entity = origin) ∨
      ∃ definition value outcome, origin.definition = some definition ∧
        around.apply origin.fullName definition = .ok (value, outcome) ∧
        entity = { origin with definition := some value } ∧
        own = (outcome.missing.map fun u =>
          .missingReference origin.fullName u.key u.path.text) ++ outcome.invalid := by
  have hfound : (Entity.find? origin.fullName around.free).isSome = true :=
    Entity.find?_isSome_iff.2 (List.mem_map_of_mem horigin)
  rw [linkFree, if_pos hfound, linkDefinition] at h
  split at h
  · rename_i hnone
    simp only [Except.ok.injEq, Prod.mk.injEq] at h
    exact Or.inl ⟨hnone, h.1.symm⟩
  · rename_i definition hdefinition
    rcases happly : around.apply origin.fullName definition with e | ⟨value, outcome⟩
    · simp [happly, Except.map] at h
    · simp only [happly, Except.map, Except.ok.injEq, Prod.mk.injEq] at h
      exact Or.inr ⟨definition, value, outcome, hdefinition, happly, h.1.symm, h.2.symm⟩

/-- What is known of the last state of a resolution that hands back a module. -/
structure Settles (final : Resolver) (resolved : ModuleGraph) : Prop where
  waiting : final.waiting = []
  diagnostics : final.diagnostics = []
  linked : ∃ entities,
    linkDefinitions final.surroundings final.partition.toGraph.entities = .ok (entities, []) ∧
      resolved = { final.partition.toGraph with entities := entities }

theorem conclude_eq_ok (hreport : FailureReport.unresolved last.waiting = [] → last.waiting = [])
    (h : last.conclude = .ok (resolved, stats)) : last.Settles resolved := by
  unfold conclude at h
  simp only at h
  split at h
  · simp at h
  · rename_i linked hlinked
    split at h
    · rename_i hempty
      simp only [List.isEmpty_iff, List.append_eq_nil_iff] at hempty
      obtain ⟨⟨hdiagnostics, hunresolved⟩, hdefinitions⟩ := hempty
      simp only [Except.ok.injEq, Prod.mk.injEq] at h
      exact ⟨hreport hunresolved, hdiagnostics, linked.1, by rw [hlinked, ← hdefinitions], h.1.symm⟩
    · simp at h

/-- An invariant of the steps holds in the last state of a resolution that hands back a module. -/
theorem resolve_invariant {Inv : Resolver → Prop} {partition : Partition}
    (hstep : ∀ {resolver next n}, Inv resolver → resolver.step = (next, .ok n) → Inv next)
    (hstart : Inv (start config catalog partition))
    (h : resolve config catalog partition = .ok (resolved, stats)) :
    ∃ final, Inv final ∧ final.Settles resolved := by
  obtain ⟨last, hrun, hconclude⟩ := resolve_eq_ok h
  obtain ⟨final, hinv, rfl, hend⟩ := run_invariant hstep hstart hrun
  have hreport : FailureReport.unresolved final.waiting = [] → final.waiting = [] := by
    intro hunresolved
    rcases hend with hnil | ⟨before, -, hlast⟩
    · exact hnil
    · exact FailureReport.unresolved_eq_nil (isStuck_of_step hlast) hunresolved
  obtain ⟨hwaiting, hdiagnostics, hlinked⟩ := conclude_eq_ok hreport hconclude
  exact ⟨final, hinv, hwaiting, hdiagnostics, hlinked⟩

namespace Settles

variable {final : Resolver}

theorem bound_surroundings (h : final.Settles resolved) : final.surroundings.bound = [] := by
  simp [surroundings, bound, h.waiting]

/-- Every entity of the module comes from one of the last state, with a linked declaration. -/
theorem forall₂_linkFree (h : final.Settles resolved) :
    List.Forall₂ (fun origin entity => linkFree final.surroundings origin = .ok (entity, []))
      final.partition.toGraph.entities resolved.entities := by
  obtain ⟨entities, hentities, rfl⟩ := h.linked
  refine (forall₂_linkDefinitions hentities).imp ?_
  rintro origin entity ⟨own, hown, hsubset⟩
  rwa [List.subset_nil.1 hsubset] at hown

/-- Every entity of the module is a free entity with a linked declaration. -/
theorem exists_origin (h : final.Settles resolved) {entity : Entity}
    (hentity : entity ∈ resolved.entities) :
    ∃ origin ∈ final.free, linkFree final.surroundings origin = .ok (entity, []) := by
  obtain ⟨origin, horigin, hlink⟩ := h.forall₂_linkFree.exists_of_mem_right hentity
  obtain ⟨name, -, hname⟩ := List.mem_filterMap.1 horigin
  rw [Partition.get?_eq_find?] at hname
  have hmem := Entity.mem_of_find? hname
  refine ⟨origin, ?_, hlink⟩
  simpa [Partition.entities, Resolver.partition, bound, h.waiting] using hmem

/-- Every free entity is in the module, with its name and its reference. -/
theorem exists_resolved (h : final.Settles resolved)
    (hperm : (Entity.names final.partition.entities).Perm final.partition.order)
    (hnodup : final.partition.order.Nodup) {origin : Entity} (horigin : origin ∈ final.free) :
    ∃ entity ∈ resolved.entities,
      entity.fullName = origin.fullName ∧ entity.reference = origin.reference := by
  have hmem : origin ∈ final.partition.toGraph.entities :=
    (Partition.perm_toGraph hperm hnodup).mem_iff.2 (List.mem_append_left _ horigin)
  obtain ⟨entity, hentity, hlink⟩ := h.forall₂_linkFree.exists_of_mem_left hmem
  exact ⟨entity, hentity, eq_of_linkFree hlink⟩

/-- In the module, a free entity is found under its name, with its reference. -/
theorem get?_of_mem_free {graph : ModuleGraph} {rounds : List (List String)}
    (h : final.Settles resolved) (hkept : Kept graph rounds final) (hvalid : graph.Valid)
    {origin : Entity} (horigin : origin ∈ final.free) :
    ∃ entity, resolved.get? origin.fullName = some entity ∧
      entity.reference = origin.reference := by
  have horder : final.partition.order = graph.names := hkept.order
  have hnames : resolved.names = graph.names := by
    rw [← (hkept.accounts hvalid).graph_names]
    exact (h.forall₂_linkFree.map_eq_map fun hlink => (eq_of_linkFree hlink).1.symm).symm
  obtain ⟨entity, hentity, hname, hreference⟩ :=
    h.exists_resolved (horder ▸ hkept.perm) (horder ▸ hvalid.nodup) horigin
  have hnodup : (Entity.names resolved.entities).Nodup := by
    have hresolved : resolved.names.Nodup := hnames ▸ hvalid.nodup
    exact hresolved
  exact ⟨entity, (Entity.find?_eq_some_iff hnodup).2 ⟨hentity, hname⟩, hreference⟩

/-- The entities of the module are the declared ones, one by one: each is free in the last state,
with its declaration, which was then linked. -/
theorem forall₂_declared {graph : ModuleGraph} {rounds : List (List String)}
    (h : final.Settles resolved) (hkept : Kept graph rounds final) (hvalid : graph.Valid) :
    List.Forall₂ (fun origin entity => ∃ value, origin ∈ graph.entities ∧
      origin.withReference value ∈ final.free ∧
      linkFree final.surroundings (origin.withReference value) = .ok (entity, []))
      graph.entities resolved.entities := by
  have hbound : final.bound = [] := by simp [bound, h.waiting]
  have hdeclared : ∀ origin ∈ graph.entities, ∃ found,
      final.partition.get? origin.fullName = some found ∧
        ∃ value, found = origin.withReference value ∧ origin ∈ graph.entities ∧
          found ∈ final.free := by
    intro origin horigin
    obtain ⟨value, hvalue⟩ := (hkept.accounts hvalid).declared origin horigin
    refine ⟨_, hvalue, value, rfl, horigin, ?_⟩
    rw [Partition.get?_eq_find?] at hvalue
    simpa [Partition.entities, Resolver.partition, hbound] using Entity.mem_of_find? hvalue
  have hgraph : List.Forall₂ (fun origin found => ∃ value, found = origin.withReference value ∧
      origin ∈ graph.entities ∧ found ∈ final.free)
      graph.entities final.partition.toGraph.entities := by
    have horder : final.partition.order = Entity.names graph.entities := hkept.order
    rw [Partition.toGraph, horder]
    exact Entity.forall₂_filterMap_names hdeclared
  refine (hgraph.comp h.forall₂_linkFree).imp ?_
  rintro origin entity ⟨_, ⟨value, rfl, horigin, hfree⟩, hlink⟩
  exact ⟨value, horigin, hfree, hlink⟩

/-- The passes over the declared declarations have reached their end. -/
theorem exists_apply {graph : ModuleGraph} {rounds : List (List String)}
    (h : final.Settles resolved) (hkept : Kept graph rounds final) (hvalid : graph.Valid)
    {entity : Entity} (hentity : entity ∈ graph.entities) {definition : Value}
    (hdefinition : entity.definition = some definition) :
    ∃ w outcome, final.surroundings.apply entity.fullName definition = .ok (w, outcome) := by
  obtain ⟨after, -, value, -, hfree, hlink⟩ :=
    (h.forall₂_declared hkept hvalid).exists_of_mem_left hentity
  rcases linkFree_eq_ok hfree hlink with ⟨hnone, -⟩ | ⟨_, w, outcome, hsome, happly, -, -⟩
  · simp [hdefinition] at hnone
  · obtain rfl := Option.some.inj (hdefinition.symm.trans hsome)
    exact ⟨w, outcome, happly⟩

end Settles

theorem eq_ok_of_toOption {ε α : Type} {result : Except ε α} {a : α}
    (h : result.toOption = some a) : result = .ok a := by
  cases result with
  | error e => simp [Except.toOption] at h
  | ok b => exact congrArg Except.ok (Option.some.inj h)

end Resolver

end StackLinker
