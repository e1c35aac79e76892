import StackLinker.Proofs.Form.Rigidity
import StackLinker.Proofs.Linking.Finalization
import StackLinker.Proofs.Resolution.Locations

/-!
# Modules of ordinary values are linked without structural errors

Whether a node is malformed is decided when its parts have been rewritten, so that a value may be
well-formed and still end a pass: an argument map that is itself a form is replaced by something
else, and what stands around it is no substitution any more.  In an ordinary value there is no such
map.

* A pass over an ordinary value reaches its end, and what it leaves behind is ordinary again
  (`IsTame.exists_rewrites`): what comes into the place of a form is ordinary, and added
  arguments make no argument map a form.
* So all references stay ordinary from step to step (`Ordinary.step`), no sweep meets a structural
  error, and neither do the passes over the declarations behind the run.
* Finalization has no structural errors in any case.
-/

namespace StackLinker

open Value

/-- Nothing is known of the values that are put into patterns. -/
def Splicing.unknown : Splicing := ⟨fun _ => True, True⟩

namespace Value

variable {config : Config} {splicing : Splicing}

/-- The argument map of a tame template is no form, and the arguments are tame. -/
theorem IsTame.arguments {pattern : String} {arguments : Option (Fields Value)}
    (h : (Value.template pattern arguments).IsTame config splicing) :
    Fields.isReserved (arguments.getD []) = false ∧
      ∀ argument ∈ arguments.getD [], argument.2.IsTame config splicing := by
  have hform := Form.recognize?_template pattern arguments
  generalize Value.template pattern arguments = v at h hform
  cases h with
  | scalar s => simp [Form.recognize?] at hform
  | ordinary _ hordinary => simp [Form.isReserved_of_recognize? hform] at hordinary
  | target hother hplaceholder =>
      obtain rfl : _ = Form.substitution pattern arguments := by simpa [hform] using hother.symm
      simp [Form.placeholder?] at hplaceholder
  | @template other declared _ _ hordinary hparts =>
      obtain ⟨rfl, rfl⟩ : other = pattern ∧ declared = arguments := by
        simpa [Form.recognize?_template] using hform
      exact ⟨hordinary, hparts⟩

end Value

namespace Surroundings

/-- The references of the free entities are tame. -/
def IsTame (around : Surroundings) : Prop :=
  ∀ target ∈ around.free, target.reference.IsTame around.config .unknown

namespace IsTame

variable {around : Surroundings} {node v : Value}

/-! ## One pass -/

/-- What comes into the place of a tame form is tame. -/
theorem settle (h : around.IsTame) {form : Form} (hform : Form.recognize? node = .ok (some form))
    (hnode : node.IsTame around.config .unknown) (source : String) (path : Path)
    (outcome : Outcome) :
    (around.settle source path node form outcome).1.IsTame around.config .unknown := by
  refine settle_cases (P := fun v => v.IsTame around.config .unknown) hform hnode h
    (fun key attr => .target (Form.recognize?_getAtt key attr) rfl) (fun _ => .scalar _) ?_
  rintro pattern arguments text added rfl hadded -
  obtain ⟨hordinary, hparts⟩ := hnode.arguments
  rw [sub_eq_template]
  refine .template (Or.inr trivial) (fun _ _ _ => trivial) ?_ ?_
  · rw [getD_ifEmpty, Filling.isReserved_append _ hadded, hordinary, Bool.and_false]
  · rw [getD_ifEmpty]
    intro argument hargument
    rcases List.mem_append.1 hargument with hdeclared | hnew
    · exact hparts argument hdeclared
    · obtain ⟨target, htarget, hvalue⟩ := (hadded argument hnew).value
      exact hvalue ▸ h target htarget

/-- A pass over a tame value reaches its end, and the new value is tame again. -/
theorem exists_rewrites (h : around.IsTame) (hv : v.IsTame around.config .unknown)
    (source : String) (path : Path) (outcome : Outcome) :
    ∃ w later, v.Rewrites (around.rule source) path outcome w later ∧
      w.IsTame around.config .unknown := by
  induction hv generalizing path outcome with
  | scalar s => exact ⟨.scalar s, outcome, rewrites_scalar_iff.2 ⟨rfl, rfl⟩, .scalar s⟩
  | @ordinary v hv hordinary _ ih =>
      obtain ⟨parts, later, hthread⟩ := Thread.exists_of_forall
        (R := fun key x n y m => x.Rewrites (around.rule source) (path.push key) n y m ∧
          y.IsTame around.config .unknown) (fun child hchild n => ih child hchild _ n) outcome
      refine ⟨v.withChildren parts, later, (rewrites_of_not_isReserved hv hordinary).2
        ⟨parts, rfl, hthread.mono fun _ => And.left⟩, .ordinary ?_ ?_ ?_⟩
      · rw [isCompound_withChildren, hv]
      · rw [isReserved_withChildren hthread.keys_eq, hordinary]
      · rw [children_withChildren hthread.keys_eq]
        exact hthread.forall_after And.right
  | target hform hplaceholder =>
      exact ⟨_, _, (rewrites_target_iff hform (Form.placeholder?_eq_some hplaceholder)).2 rfl,
        h.settle hform (.target hform hplaceholder) source path outcome⟩
  | @template pattern arguments _ _ hordinary _ ih =>
      obtain ⟨done, between, hthread⟩ := Thread.exists_of_forall
        (R := fun key x n y m => x.Rewrites (around.rule source) ((argumentsPath path).push key)
          n y m ∧ y.IsTame around.config .unknown) (fun child hchild n => ih child hchild _ n)
        outcome
      have hdone : (template pattern (arguments.map fun _ => done)).IsTame around.config
          .unknown := by
        refine .template (Or.inr trivial) (fun _ _ _ => trivial) ?_ ?_
        · rw [getD_map_of_keys_eq hthread.keys_eq, Fields.isReserved_congr hthread.keys_eq,
            hordinary]
        · rw [getD_map_of_keys_eq hthread.keys_eq]
          exact hthread.forall_after And.right
      exact ⟨_, _, (rewrites_template_iff hordinary).2
        ⟨done, between, hthread.mono fun _ => And.left, rfl⟩,
        h.settle (Form.recognize?_template _ _) hdone source path between⟩

theorem exists_apply (h : around.IsTame) (hv : v.IsTame around.config .unknown)
    (source : String) :
    ∃ w outcome, around.apply source v = .ok (w, outcome) ∧ w.IsTame around.config .unknown := by
  obtain ⟨w, outcome, hrewrites, hw⟩ := h.exists_rewrites hv source [source] {}
  exact ⟨w, outcome, apply_eq_ok_iff.2 hrewrites, hw⟩

end IsTame

end Surroundings

namespace Resolver

variable {config : Config} {catalog : Catalog} {graph : ModuleGraph} {partition : Partition}
  {resolver next : Resolver} {n : Nat}

/-! ## Steps -/

/-- What the steps of a resolver preserve in a module of ordinary values. -/
structure Ordinary (graph : ModuleGraph) (resolver : Resolver) : Prop where
  kept : ∃ rounds, Kept graph rounds resolver
  references : ∀ entity ∈ resolver.free ++ resolver.bound,
    entity.reference.IsTame resolver.config .unknown

theorem ordinary_start (hordinary : ∀ entity ∈ graph.entities, entity.reference.IsOrdinary)
    (h : graph.partition = .ok partition) : Ordinary graph (start config catalog partition) := by
  refine ⟨⟨[], kept_start h config catalog⟩, fun entity hentity => ?_⟩
  exact (hordinary entity (mem_entities_of_start h hentity)).tame config

theorem Ordinary.isTame (h : Ordinary graph resolver) : resolver.surroundings.IsTame :=
  fun target htarget => h.references target (List.mem_append_left _ htarget)

/-- No sweep over ordinary references meets a structural error. -/
theorem Ordinary.passes (h : Ordinary graph resolver) :
    ∀ pending ∈ resolver.waiting, resolver.surroundings.Passes pending := by
  intro pending hpending
  obtain ⟨value, outcome, happly, -⟩ := h.isTame.exists_apply
    (h.references pending.entity (List.mem_append_right _ (List.mem_map_of_mem hpending)))
    pending.entity.fullName
  exact ⟨value, outcome, happly⟩

theorem Ordinary.step (h : Ordinary graph resolver) (hstep : resolver.step = (next, .ok n)) :
    Ordinary graph next := by
  obtain ⟨rounds, hkept⟩ := h.kept
  have hconfig : next.config = resolver.config := by
    obtain ⟨-, -, rfl⟩ := step_eq_ok hstep
    rfl
  refine ⟨hkept.step hstep, ?_⟩
  rw [hconfig]
  refine forall_references_step (R := fun _ v => v.IsTame resolver.config .unknown) ?_
    h.references hstep
  intro name v w outcome happly hv
  obtain ⟨other, later, hother, htame⟩ := h.isTame.exists_apply hv name
  obtain ⟨rfl, -⟩ : w = other ∧ outcome = later := by
    simpa [happly] using hother
  exact htame

/-! ## Declarations -/

/-- Declarations can be linked if each of them can. -/
theorem exists_linkDefinitions {around : Surroundings} {entities : List Entity}
    (h : ∀ entity ∈ entities, ∃ linked, linkFree around entity = .ok linked) :
    ∃ linked, linkDefinitions around entities = .ok linked := by
  induction entities with
  | nil => exact ⟨_, rfl⟩
  | cons entity rest ih =>
      obtain ⟨own, hown⟩ := h entity List.mem_cons_self
      obtain ⟨others, hothers⟩ := ih fun other hother => h other (List.mem_cons_of_mem _ hother)
      exact ⟨_, by rw [linkDefinitions, hown, hothers]; rfl⟩

/-- Resolution changes nothing but references. -/
theorem Kept.declared_toGraph {rounds : List (List String)} (h : Kept graph rounds resolver)
    {entity : Entity} (hentity : entity ∈ resolver.partition.toGraph.entities) :
    ∃ origin ∈ graph.entities, entity = origin.withReference entity.reference := by
  obtain ⟨name, -, hname⟩ := List.mem_filterMap.1 hentity
  rw [Partition.get?_eq_find?] at hname
  exact h.declared entity (Entity.mem_of_find? hname)

/-- Whether a declaration can be linked is decided by its shape, if no malformed node in it can take
the right one. -/
theorem exists_linkFree_iff {around : Surroundings} (hfree : around.IsTame) {entity : Entity}
    (hrigid : ∀ definition ∈ entity.definition, definition.IsRigid)
    (harguments : ∀ definition ∈ entity.definition, ∀ pattern arguments,
      template pattern (some arguments) ∈ definition.nodes → Fields.isReserved arguments = false)
    (value : Value) : (∃ linked, linkFree around (entity.withReference value) = .ok linked) ↔
      (entity.fullName ∈ Entity.names around.free →
        ∀ definition ∈ entity.definition, definition.isWellFormed = true) := by
  by_cases hname : entity.fullName ∈ Entity.names around.free
  · rw [linkFree, Entity.fullName_withReference, if_pos (Entity.find?_isSome_iff.2 hname),
      linkDefinition, Entity.definition_withReference]
    cases hdefinition : entity.definition with
    | none => simp
    | some definition =>
        have hmem : definition ∈ entity.definition := hdefinition
        simp only [hname, true_implies, Option.mem_some_iff, forall_eq']
        constructor
        · rintro ⟨linked, hlinked⟩
          cases happly : around.apply entity.fullName definition with
          | error e => simp [happly, Except.map] at hlinked
          | ok applied =>
              exact isWellFormed_iff.2 (wellFormed_of_rewrites (hrigid definition hmem)
                (Surroundings.apply_eq_ok_iff.1 happly))
        · intro hwell
          have hordinary : definition.IsOrdinary := ⟨hwell, harguments definition hmem⟩
          obtain ⟨w, outcome, happly, -⟩ :=
            hfree.exists_apply (hordinary.tame around.config) entity.fullName
          exact ⟨_, by rw [Entity.fullName_withReference, happly]; rfl⟩
  · rw [linkFree, Entity.fullName_withReference,
      if_neg fun hfound => hname (Entity.find?_isSome_iff.1 hfound)]
    simp [hname]

theorem structural_conclude_iff : (∃ e, resolver.conclude = .error (.structural e)) ↔
    ¬ ∃ linked, linkDefinitions resolver.surroundings resolver.partition.toGraph.entities =
      .ok linked := by
  rcases hlinked : linkDefinitions resolver.surroundings resolver.partition.toGraph.entities with
    e | linked
  · simp [conclude, hlinked]
  · simp only [conclude, hlinked, Except.ok.injEq, exists_eq', not_true_eq_false, iff_false,
      not_exists]
    intro e
    split <;> simp

/-- The passes over ordinary declarations reach their end. -/
theorem Ordinary.exists_linkDefinitions (h : Ordinary graph resolver)
    (hordinary : ∀ entity ∈ graph.entities, ∀ v, entity.definition = some v → v.IsOrdinary) :
    ∃ linked, linkDefinitions resolver.surroundings resolver.partition.toGraph.entities =
      .ok linked := by
  obtain ⟨rounds, hkept⟩ := h.kept
  refine Resolver.exists_linkDefinitions fun entity hentity => ?_
  obtain ⟨origin, horigin, hsame⟩ := hkept.declared_toGraph hentity
  have hdeclared : ∀ v ∈ origin.definition, v.IsOrdinary := hordinary origin horigin
  rw [hsame, exists_linkFree_iff h.isTame
    (fun v hv => isRigid_of_isWellFormed (hdeclared v hv).wellFormed)
    fun v hv => (hdeclared v hv).arguments]
  exact fun _ v hv => (hdeclared v hv).wellFormed

theorem Ordinary.conclude_ne (h : Ordinary graph resolver)
    (hordinary : ∀ entity ∈ graph.entities, ∀ v, entity.definition = some v → v.IsOrdinary)
    (e : StructuralError) : resolver.conclude ≠ .error (.structural e) := fun herror =>
  structural_conclude_iff.1 ⟨e, herror⟩ (h.exists_linkDefinitions hordinary)

/-- Resolution of ordinary values meets no structural error. -/
theorem resolve_ne_structural
    (hordinary : ∀ entity ∈ graph.entities, ∀ v ∈ entity.values, v.IsOrdinary)
    (hpartition : graph.partition = .ok partition) (e : StructuralError) :
    resolve config catalog partition ≠ .error (.structural e) := by
  have hstart : Ordinary graph (start config catalog partition) :=
    ordinary_start (fun entity hentity =>
      (Entity.forall_mem_values.1 (hordinary entity hentity)).1) hpartition
  obtain ⟨last, hrun⟩ : ∃ last, (start config catalog partition).run = (last, none) :=
    ⟨_, Prod.ext rfl (run_of_passes Ordinary.passes Ordinary.step hstart)⟩
  obtain ⟨final, hfinal, rfl, -⟩ := run_invariant Ordinary.step hstart hrun
  rw [resolve_of_run hrun]
  exact hfinal.conclude_ne (fun entity hentity =>
    (Entity.forall_mem_values.1 (hordinary entity hentity)).2) e

end Resolver

/-! ## Linking -/

/-- A module of ordinary values is linked, or diagnostics say why not. -/
theorem ModuleGraph.link_ne_structural {config : Config} {catalog : Catalog} {graph : ModuleGraph}
    (hordinary : ∀ entity ∈ graph.entities, ∀ v ∈ entity.values, v.IsOrdinary)
    (e : StructuralError) : graph.link config catalog ≠ .error (.structural e) := by
  have hnull : ∀ entity ∈ graph.entities, entity.reference ≠ .null := fun entity hentity hnull =>
    null_notMem_nodes_of_isWellFormed
      (hordinary entity hentity _ List.mem_cons_self).wellFormed (hnull ▸ self_mem_nodes _)
  obtain ⟨parts, hparts⟩ := Entity.exists_split hnull
  obtain ⟨partition, hpartition⟩ : ∃ partition, graph.partition = .ok partition :=
    ⟨_, by rw [ModuleGraph.partition, hparts]; rfl⟩
  unfold link
  simp only [hpartition]
  split
  · simp
  · cases hresolve : Resolver.resolve config catalog partition with
    | error failure =>
        rintro heq
        obtain rfl : failure = .structural e := by simpa using heq
        exact Resolver.resolve_ne_structural hordinary hpartition e hresolve
    | ok result =>
        obtain ⟨resolved, stats⟩ := result
        have hfinalize : (resolved.finalize config).2 = none :=
          Entity.finalizeAll_of_isWellFormed
            (Resolver.isWellFormed_of_resolve hpartition hresolve)
        rcases hfinalized : resolved.finalize config with ⟨finalized, failure⟩
        obtain rfl : failure = none := by rwa [hfinalized] at hfinalize
        simp only [hfinalized]
        split <;> simp

end StackLinker
