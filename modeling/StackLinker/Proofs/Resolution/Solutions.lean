import StackLinker.Proofs.Resolution.Success
import StackLinker.Proofs.Substitution.Composing
import StackLinker.Proofs.Substitution.Mirroring

/-!
# What declared references come to

A resolver goes over a reference again and again.  Up to the names of added arguments, all this
comes to what a single pass would make of the declared reference in the end, when everything is free
(`exists_solution`).  This says nothing any more about the order in which entities become free.

It determines the references, too: as no entity depends on itself, they can be compared one after
the other, along the order in which the entities became free in one of two runs
(`IsSolution.corresponds`).

## Strategy

The invariant (`Represents`) looks ahead: in all surroundings that a state may still lead to, passes
make alike values of the declared reference and of the present one.  Each step adds a pass on one
side, which `Yields.alike` takes off again.
-/

namespace StackLinker

/-! ## Surroundings that grant alike values -/

namespace Surroundings

variable {first second : Surroundings} {placeholder : Placeholder} {entity twin : Entity}

/-- Entities that only differ in their references, of which passes make alike values as soon as what
the first one asks for is granted alike. -/
structure Mirrors (first second : Surroundings) (entity twin : Entity) : Prop where
  rest : twin = entity.withReference twin.reference
  alike : ∀ x y,
    (∀ placeholder ∈ entity.reference.requested, first.Corresponds second placeholder) →
      first.Yields entity.reference x → second.Yields twin.reference y → x.Alike first.config y

theorem corresponds_of_isExempt (hconfig : second.config = first.config)
    (h : first.config.isExempt placeholder.name = true) :
    first.Corresponds second placeholder := by
  have hother : second.config.isExempt placeholder.name = true := hconfig.symm ▸ h
  simp [Corresponds, grant?, meaning_eq_exempt_iff.2 h, meaning_eq_exempt_iff.2 hother]

/-- Free entities that only differ in alike references grant alike values. -/
theorem corresponds_of_alike (hconfig : second.config = first.config)
    (hcatalog : second.catalog = first.catalog)
    (hentity : first.meaning placeholder.name = .free entity)
    (htwin : second.meaning placeholder.name = .free twin)
    (hsame : twin = entity.withReference twin.reference)
    (halike : entity.reference.Alike first.config twin.reference) :
    first.Corresponds second placeholder := by
  have hoffers (attr : String) :
      twin.offers second.catalog attr = entity.offers first.catalog attr := by
    rw [hsame, Entity.offers_withReference, hcatalog]
  have hname : twin.resourceName second.config = entity.resourceName first.config := by
    rw [hsame, hconfig]
    rfl
  unfold Corresponds grant?
  rw [hentity, htwin]
  cases placeholder.attr with
  | none => exact .some halike
  | some attr =>
      simp only [hoffers, hname]
      split
      · exact .some (.target (Form.recognize?_getAtt _ _) rfl)
      · exact .none

end Surroundings

/-- Entities that are the same apart from the names of added arguments in what they refer to and
what they declare. -/
structure Entity.Alike (config : Config) (entity twin : Entity) : Prop where
  rest : twin = { entity with reference := twin.reference, definition := twin.definition }
  reference : entity.reference.Alike config twin.reference
  definition : Option.Rel (Value.Alike config) entity.definition twin.definition

namespace Resolver

open Value

variable {config : Config} {catalog : Catalog} {graph other resolved : ModuleGraph}
  {resolver next final last : Resolver} {partition : Partition} {n : Nat} {stats : Stats}

/-! ## The invariant -/

/-- Surroundings that a state may lead to make alike values of the declared references and of the
present ones. -/
def Represents (config : Config) (graph : ModuleGraph) (resolver : Resolver) : Prop :=
  ∀ entity ∈ resolver.free ++ resolver.bound, ∀ origin ∈ graph.entities,
    origin.fullName = entity.fullName → ∀ later, resolver.surroundings.Precedes later →
      later.Still (graph.splicing config) → ∀ x y, later.Yields entity.reference x →
        later.Yields origin.reference y → y.Alike config x

/-- What a pass makes of a tame value is alike to itself. -/
theorem alike_of_yields {around : Surroundings} {splicing : Splicing} {v w : Value}
    (hcalm : around.Calm splicing) (hv : v.IsTame around.config splicing) (h : around.Yields v w) :
    w.Alike around.config w := by
  obtain ⟨x, _, hpass, hreduces⟩ := Surroundings.exists_rewrites_of_isTame hcalm "" hv [] {}
  obtain rfl := Surroundings.eq_of_yields (Surroundings.yields_of_rewrites hpass) h
  exact hreduces.tame.alike

theorem represents_start (hgraph : graph.IsDeclarative config)
    (h : graph.partition = .ok partition) (catalog : Catalog) :
    Represents config graph (start config catalog partition) := by
  intro entity hentity origin horigin hname later hlater hstill x y hx hy
  obtain rfl := declared_eq_of_start hgraph.valid.nodup h horigin hentity hname
  obtain rfl := Surroundings.eq_of_yields hx hy
  have hconfig : later.config = config := hlater.config
  have htame := hgraph.regular.tame horigin (hgraph.wellFormed origin horigin)
  exact hconfig ▸ alike_of_yields hstill.toCalm (hconfig.symm ▸ htame) hx

theorem Represents.step (hgraph : graph.IsDeclarative config)
    (husable : config.HasUsableNumbers) (hproceeds : Proceeds config graph resolver)
    (hdiagnostics : resolver.diagnostics = []) (h : Represents config graph resolver)
    (hstep : resolver.step = (next, .ok n)) : Represents config graph next := by
  have hconfig : resolver.surroundings.config = config := hproceeds.advances.config_eq
  have hstill := hproceeds.still hgraph.toStarts hgraph.not_isSynthetic_of_isSpliced hdiagnostics
  intro entity hentity origin horigin hname later hlater hlaterStill x y hx hy
  replace hlater := (precedes_step hstep).trans hlater
  -- A pass has gone over every entity that was not free before.
  have hpass : entity ∈ resolver.free ∨ ∃ pending ∈ resolver.waiting, ∃ value outcome,
      resolver.surroundings.apply pending.entity.fullName pending.entity.reference =
        .ok (value, outcome) ∧ entity = pending.entity.withReference value := by
    rcases List.mem_append.1 hentity with hfree | hbound
    · refine (of_mem_free_step hstep hfree).imp_right ?_
      exact fun ⟨pending, hpending, value, outcome, happly, _, heq⟩ =>
        ⟨pending, hpending, value, outcome, happly, heq⟩
    · obtain ⟨kept, hkept, rfl⟩ := List.mem_map.1 hbound
      obtain ⟨pending, hpending, value, outcome, happly, -, rfl⟩ := of_mem_waiting_step hstep hkept
      exact Or.inr ⟨pending, hpending, value, outcome, happly, rfl⟩
  rcases hpass with hold | ⟨pending, hpending, value, outcome, happly, rfl⟩
  · exact h entity (List.mem_append_left _ hold) origin horigin hname later hlater hlaterStill x y
      hx hy
  · have htame := hproceeds.advances.tame_pending hpending
    obtain ⟨z, _, hz, -⟩ := Surroundings.exists_rewrites_of_isTame hlaterStill.toCalm ""
      (hlater.config.symm ▸ htame) [] {}
    have hbound : pending.entity ∈ resolver.free ++ resolver.bound :=
      List.mem_append_right _ (List.mem_map_of_mem hpending)
    have hbefore := h pending.entity hbound origin horigin hname later hlater hlaterStill z y
      (Surroundings.yields_of_rewrites hz) hy
    refine hbefore.trans ?_
    exact hconfig ▸ Surroundings.Yields.alike hstill hlaterStill hlater (hconfig.symm ▸ husable)
      htame (Surroundings.yields_of_apply happly) hx (Surroundings.yields_of_rewrites hz)

/-! ## Solutions -/

/-- A state in which the references of a module are what passes over the declared ones make of them
there. -/
structure IsSolution (config : Config) (catalog : Catalog) (graph : ModuleGraph)
    (final : Resolver) : Prop where
  valid : graph.Valid
  config_eq : final.config = config
  catalog_eq : final.catalog = catalog
  kept : ∃ rounds, Kept graph rounds final
  waiting : final.waiting = []
  ordered : IsOrdered config graph final.free
  solves : ∀ origin ∈ graph.entities, ∃ value reference, origin.withReference value ∈ final.free ∧
    final.surroundings.Yields origin.reference reference ∧ reference.Alike config value

/-- A resolution that succeeds ends with a solution. -/
theorem exists_solution (hgraph : graph.IsDeclarative config) (husable : config.HasUsableNumbers)
    (h : graph.resolve config catalog = .ok (resolved, stats)) :
    ∃ final, IsSolution config catalog graph final ∧ final.Settles resolved := by
  obtain ⟨partition, hpartition, hresolve⟩ := hgraph.exists_partition catalog
  rw [hresolve] at h
  have hstep : ∀ {resolver next n},
      Tracked config catalog graph resolver ∧
        (resolver.diagnostics = [] → Represents config graph resolver) →
      resolver.step = (next, .ok n) → Tracked config catalog graph next ∧
        (next.diagnostics = [] → Represents config graph next) := by
    rintro resolver next n ⟨htracked, hrepresents⟩ hstep
    refine ⟨htracked.step hgraph hstep, fun hdiagnostics => ?_⟩
    have hbefore := diagnostics_eq_nil_of_step hstep hdiagnostics
    exact (hrepresents hbefore).step hgraph husable htracked.proceeds hbefore hstep
  obtain ⟨final, ⟨htracked, hrepresents⟩, hend⟩ := resolve_invariant hstep
    ⟨tracked_start hgraph hpartition catalog, fun _ => represents_start hgraph hpartition catalog⟩ h
  obtain ⟨rounds, hkept⟩ := htracked.proceeds.advances.kept
  have hconfig : final.surroundings.config = config := htracked.proceeds.advances.config_eq
  have hstill := htracked.proceeds.still hgraph.toStarts hgraph.not_isSynthetic_of_isSpliced
    hend.diagnostics
  refine ⟨final, ⟨hgraph.valid, hconfig, htracked.catalog_eq, ⟨rounds, hkept⟩, hend.waiting,
    (htracked.tracks hend.diagnostics).ordered, fun origin horigin => ?_⟩, hend⟩
  obtain ⟨value, hfree⟩ := hkept.exists_free hgraph.valid.nodup hend.waiting horigin
  have htame : origin.reference.IsTame final.surroundings.config (graph.splicing config) := by
    rw [hconfig]
    exact hgraph.regular.tame horigin (hgraph.wellFormed origin horigin)
  obtain ⟨reference, _, hpass, -⟩ := Surroundings.exists_rewrites_of_isTame hstill.toCalm "" htame
    [] {}
  have hyields := Surroundings.yields_of_rewrites hpass
  refine ⟨value, reference, hfree, hyields, ?_⟩
  -- The reference of a free entity stays as it is.
  have hrests : final.surroundings.Yields value value := fun source path notes =>
    ⟨notes, htracked.proceeds.final hend.diagnostics _ hfree _ hconfig source path notes⟩
  exact hrepresents hend.diagnostics _ (List.mem_append_left _ hfree) origin horigin rfl _
    (Surroundings.Precedes.refl _) hstill value reference hrests hyields

namespace IsSolution

/-- A name that is not exempt means the entity that has it. -/
theorem meaning_eq (h : IsSolution config catalog graph final) {entity : Entity}
    (hfree : entity ∈ final.free) (hexempt : config.isExempt entity.fullName = false) :
    final.surroundings.meaning entity.fullName = .free entity := by
  obtain ⟨rounds, hkept⟩ := h.kept
  exact hkept.meaning_eq h.valid.nodup hfree (by rwa [h.config_eq])

/-- The reference of a free entity is what a pass over the declared one makes of it. -/
theorem exists_yields (h : IsSolution config catalog graph final) {origin : Entity} {value : Value}
    (horigin : origin ∈ graph.entities) (hfree : origin.withReference value ∈ final.free) :
    ∃ reference, final.surroundings.Yields origin.reference reference ∧
      reference.Alike config value := by
  obtain ⟨other, reference, hother, hyields, halike⟩ := h.solves origin horigin
  obtain ⟨rounds, hkept⟩ := h.kept
  have hsame : origin.withReference other = origin.withReference value :=
    List.inj_on_of_nodup_map (hkept.nodup_free h.valid.nodup) hother hfree rfl
  obtain rfl : other = value := congrArg Entity.reference hsame
  exact ⟨reference, hyields, halike⟩

/-! ### Two solutions -/

variable {origin twin : Entity} {value other' : Value}

theorem config_congr (h : IsSolution config catalog graph final)
    (hother : IsSolution config catalog other last) :
    last.surroundings.config = final.surroundings.config :=
  hother.config_eq.trans h.config_eq.symm

/-- Twins come to alike values if what the first one asks for does. -/
theorem alike_of_mirrors (h : IsSolution config catalog graph final)
    (hother : IsSolution config catalog other last) (horigin : origin ∈ graph.entities)
    (htwin : twin ∈ other.entities)
    (hmirrors : final.surroundings.Mirrors last.surroundings origin twin)
    (hasked : ∀ placeholder ∈ origin.reference.requested,
      config.isExempt placeholder.name = false →
        final.surroundings.Corresponds last.surroundings placeholder)
    (hfree : origin.withReference value ∈ final.free)
    (hfree' : twin.withReference other' ∈ last.free) : value.Alike config other' := by
  have hconfig : final.surroundings.config = config := h.config_eq
  obtain ⟨reference, hyields, halike⟩ := h.exists_yields horigin hfree
  obtain ⟨reference', hyields', halike'⟩ := hother.exists_yields htwin hfree'
  have hpasses : reference.Alike config reference' := by
    refine hconfig ▸ hmirrors.alike reference reference' (fun placeholder hrequested => ?_) hyields
      hyields'
    cases hexempt : config.isExempt placeholder.name with
    | true =>
        exact Surroundings.corresponds_of_isExempt (h.config_congr hother) (hconfig.symm ▸ hexempt)
    | false => exact hasked placeholder hrequested hexempt
  exact halike.symm.trans (hpasses.trans halike')

/-- Solutions grant alike values under the names of a module if its entities have twins in the other
one. -/
theorem corresponds (h : IsSolution config catalog graph final)
    (hother : IsSolution config catalog other last)
    (htwins : ∀ origin ∈ graph.entities, ∃ twin ∈ other.entities,
      final.surroundings.Mirrors last.surroundings origin twin)
    {placeholder : Placeholder} (hname : placeholder.name ∈ graph.names) :
    final.surroundings.Corresponds last.surroundings placeholder := by
  have hconfig : final.surroundings.config = config := h.config_eq
  obtain ⟨rounds, hkept⟩ := h.kept
  have hperm := hkept.perm
  rw [bound, h.waiting, List.map_nil, List.append_nil] at hperm
  have hall : ∀ name ∈ Entity.names final.free, ∀ attr,
      final.surroundings.Corresponds last.surroundings ⟨name, attr⟩ := by
    -- The entities are compared in the order in which they became free.
    refine h.ordered.induction fun entity hentity hbefore attr => ?_
    obtain ⟨origin, horigin, hsame⟩ := hkept.declared entity (List.mem_append_left _ hentity)
    have hfullName : entity.fullName = origin.fullName := by rw [hsame]; rfl
    rw [hfullName] at hbefore ⊢
    cases hexempt : config.isExempt origin.fullName with
    | true =>
        exact Surroundings.corresponds_of_isExempt (h.config_congr hother) (hconfig.symm ▸ hexempt)
    | false =>
        obtain ⟨twin, htwin, hmirrors⟩ := htwins origin horigin
        obtain ⟨value, -, hfree, -⟩ := h.solves origin horigin
        obtain ⟨value', -, hfree', -⟩ := hother.solves twin htwin
        have halike : value.Alike config value' :=
          h.alike_of_mirrors hother horigin htwin hmirrors (fun asked hasked hexempt =>
            hbefore asked.name ⟨origin, horigin, rfl,
              mem_uses_iff_requested.2 ⟨asked, hasked, rfl, hexempt⟩⟩ asked.attr) hfree hfree'
        have hmeaning := h.meaning_eq hfree hexempt
        have hmeaning' := hother.meaning_eq hfree' (by rw [hmirrors.rest]; exact hexempt)
        rw [hmirrors.rest] at hmeaning'
        exact Surroundings.corresponds_of_alike (h.config_congr hother)
          (hother.catalog_eq.trans h.catalog_eq.symm) hmeaning hmeaning' rfl
          (hconfig.symm ▸ halike)
  exact hall placeholder.name (hperm.mem_iff.2 hname) placeholder.attr

/-- Twins are linked to alike entities. -/
theorem alike_of_linkFree (hgraph : graph.IsDeclarative config)
    (hlinkable : graph.IsLinkable config catalog) (h : IsSolution config catalog graph final)
    (hother : IsSolution config catalog other last)
    (hcorresponds : ∀ placeholder : Placeholder, placeholder.name ∈ graph.names →
      final.surroundings.Corresponds last.surroundings placeholder)
    (horigin : origin ∈ graph.entities) (htwin : twin ∈ other.entities)
    (hmirrors : final.surroundings.Mirrors last.surroundings origin twin)
    (hfree : origin.withReference value ∈ final.free)
    (hfree' : twin.withReference other' ∈ last.free) {entity counterpart : Entity}
    (hlink : linkFree final.surroundings (origin.withReference value) = .ok (entity, []))
    (hlink' : linkFree last.surroundings (twin.withReference other') = .ok (counterpart, [])) :
    entity.Alike config counterpart := by
  have hconfig : final.surroundings.config = config := h.config_eq
  have hasked : ∀ v ∈ origin.values, ∀ asked ∈ v.requested, config.isExempt asked.name = false →
      final.surroundings.Corresponds last.surroundings asked :=
    fun v hv asked hasked hexempt =>
      hcorresponds asked (hlinkable.meets origin horigin v hv asked hasked hexempt).mem_names
  have hreference : value.Alike config other' :=
    h.alike_of_mirrors hother horigin htwin hmirrors (hasked _ List.mem_cons_self) hfree hfree'
  rw [hmirrors.rest] at hfree' hlink'
  rcases linkFree_eq_ok hfree hlink with
      ⟨hnone, rfl⟩ | ⟨definition, v, outcome, hsome, happly, rfl, -⟩ <;>
    rcases linkFree_eq_ok hfree' hlink' with
      ⟨hnone', rfl⟩ | ⟨definition', w, outcome', hsome', happly', rfl, -⟩
  · refine ⟨rfl, hreference, ?_⟩
    rw [hnone, hnone']
    exact .none
  · exact absurd (hnone.symm.trans hsome') nofun
  · exact absurd (hsome.symm.trans hnone') nofun
  · obtain rfl : definition = definition' := Option.some.inj (hsome.symm.trans hsome')
    have hv : definition ∈ origin.values := by
      rw [Entity.values, show origin.definition = some definition from hsome]
      exact List.mem_cons_of_mem _ (List.mem_singleton_self _)
    refine ⟨rfl, hreference, .some ?_⟩
    refine hconfig ▸ Surroundings.yields_alike_of_corresponds (h.config_congr hother)
      ((hgraph.ordinary origin horigin definition hv).tame config) (fun place asked hrequest => ?_)
      (Surroundings.yields_of_apply happly) (Surroundings.yields_of_apply happly')
    cases hexempt : config.isExempt asked.name with
    | true =>
        exact Surroundings.corresponds_of_isExempt (h.config_congr hother) (hconfig.symm ▸ hexempt)
    | false => exact hasked definition hv asked (mem_requested_iff.2 ⟨place, hrequest⟩) hexempt

/-- Modules whose entities have twins are linked alike. -/
theorem forall₂_alike (hgraph : graph.IsDeclarative config)
    (hlinkable : graph.IsLinkable config catalog) (h : IsSolution config catalog graph final)
    (hother : IsSolution config catalog other last) {twins more : List Entity}
    (hentities : other.entities = twins ++ more)
    (htwins : List.Forall₂ (final.surroundings.Mirrors last.surroundings) graph.entities twins)
    {linked : ModuleGraph} (hsettles : final.Settles resolved) (hsettles' : last.Settles linked) :
    ∃ counterparts added, linked.entities = counterparts ++ added ∧
      List.Forall₂ (Entity.Alike config) resolved.entities counterparts := by
  obtain ⟨rounds, hkept⟩ := h.kept
  obtain ⟨rounds', hkept'⟩ := hother.kept
  have hcorresponds (placeholder : Placeholder) (hname : placeholder.name ∈ graph.names) :
      final.surroundings.Corresponds last.surroundings placeholder :=
    h.corresponds hother (fun origin horigin => by
      obtain ⟨twin, htwin, hmirrors⟩ := htwins.exists_of_mem_left horigin
      exact ⟨twin, hentities ▸ List.mem_append_left _ htwin, hmirrors⟩) hname
  have hfirst := hsettles.forall₂_declared hkept h.valid
  have hsecond := hsettles'.forall₂_declared hkept' hother.valid
  rw [hentities] at hsecond
  refine ⟨linked.entities.take twins.length, linked.entities.drop twins.length,
    (List.take_append_drop _ _).symm, ?_⟩
  refine (hfirst.flip.comp (htwins.comp (List.forall₂_take_append _ _ _ hsecond.flip).flip)).imp ?_
  rintro entity counterpart ⟨origin, ⟨value, horigin, hfree, hlink⟩, twin, hmirrors,
    value', htwin, hfree', hlink'⟩
  exact h.alike_of_linkFree hgraph hlinkable hother hcorresponds horigin
    (hentities ▸ htwin) hmirrors hfree hfree' hlink hlink'

end IsSolution

end Resolver

end StackLinker
