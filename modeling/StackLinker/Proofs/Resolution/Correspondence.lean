import StackLinker.Proofs.Resolution.Deferral

/-!
# Resolution changes values only

Resolution hands back the entities of a module in their order, with their names, kinds and types.
What every pass preserves of a value, resolution preserves of each reference and of each declaration
(`corresponds_of_resolve`).
-/

namespace StackLinker.Resolver

variable {config : Config} {catalog : Catalog} {graph resolved : ModuleGraph}
  {partition : Partition} {resolver next : Resolver} {n : Nat} {stats : Stats}
  {R : Value → Value → Prop}

/-- What the steps of a resolver preserve if every pass preserves `R`. -/
structure Derives (graph : ModuleGraph) (R : Value → Value → Prop) (resolver : Resolver) : Prop where
  kept : ∃ rounds, Kept graph rounds resolver
  references : ∀ entity ∈ resolver.free ++ resolver.bound, ∀ origin ∈ graph.entities,
    origin.fullName = entity.fullName → R origin.reference entity.reference

theorem derives_start (hnodup : graph.names.Nodup) (hrefl : ∀ v, R v v)
    (h : graph.partition = .ok partition) : Derives graph R (start config catalog partition) := by
  refine ⟨⟨[], kept_start h config catalog⟩, fun entity hentity origin horigin hname => ?_⟩
  rw [declared_eq_of_start hnodup h horigin hentity hname]
  exact hrefl _

theorem Derives.step
    (hpass : ∀ {around source v w x outcome}, R v w →
      Surroundings.apply around source w = .ok (x, outcome) → R v x)
    (h : Derives graph R resolver) (hstep : resolver.step = (next, .ok n)) :
    Derives graph R next := by
  obtain ⟨rounds, hkept⟩ := h.kept
  refine ⟨hkept.step hstep, ?_⟩
  refine forall_references_step (R := fun name v => ∀ origin ∈ graph.entities,
    origin.fullName = name → R origin.reference v) ?_ h.references hstep
  exact fun happly hold origin horigin hname => hpass (hold origin horigin hname) happly

/-- A module that resolution hands back has the declared entities, one by one. -/
theorem corresponds_of_resolve (hvalid : graph.Valid) (hrefl : ∀ v, R v v)
    (hpass : ∀ {around source v w x outcome}, R v w →
      Surroundings.apply around source w = .ok (x, outcome) → R v x)
    (hpartition : graph.partition = .ok partition)
    (h : resolve config catalog partition = .ok (resolved, stats)) :
    List.Forall₂ (Entity.Corresponds R) graph.entities resolved.entities := by
  obtain ⟨final, hfinal, hend⟩ := resolve_invariant (Derives.step (R := R) hpass)
    (derives_start hvalid.nodup hrefl hpartition) h
  obtain ⟨rounds, hkept⟩ := hfinal.kept
  refine (hend.forall₂_declared hkept hvalid).imp ?_
  rintro origin entity ⟨value, horigin, hfree, hlink⟩
  exact corresponds_linkFree hfree hlink
    (hfinal.references _ (List.mem_append_left _ hfree) origin horigin rfl)
    fun declared _ _ happly _ => hpass (hrefl declared) happly

/-- Resolution keeps the name of a module. -/
theorem name_of_resolve (hpartition : graph.partition = .ok partition)
    (h : resolve config catalog partition = .ok (resolved, stats)) :
    resolved.name = graph.name := by
  have hstep : ∀ {resolver next n}, (∃ rounds, Kept graph rounds resolver) →
      resolver.step = (next, .ok n) → ∃ rounds, Kept graph rounds next :=
    fun ⟨_, hkept⟩ hstep => hkept.step hstep
  obtain ⟨final, ⟨rounds, hkept⟩, hend⟩ :=
    resolve_invariant hstep ⟨[], kept_start hpartition config catalog⟩ h
  obtain ⟨entities, -, rfl⟩ := hend.linked
  exact hkept.name

end StackLinker.Resolver
