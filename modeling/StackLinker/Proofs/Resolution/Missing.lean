import StackLinker.Proofs.Dependency.Soundness
import StackLinker.Proofs.Resolution.Reordering
import StackLinker.Proofs.Substitution.Granting

/-!
# Missing names are reported

When resolution fails with diagnostics, a declared name that belongs to no entity is among them
(`missing_reported_of_resolve`).

Two passes can note such a name.  A name in a reference holds its entity back, so the entity stays
bound, and the last sweep, which promotes nothing, notes the name once more; this is the invariant
of `Soundness` read at the end of a run that fails.  A name in a declaration is noted by the one
pass that links it (`mem_unresolved_of_mem_uses`), which is why less is asked of declarations than
of references.

The declaration of an entity that stays bound is not linked at all, and what is missing there is
found only after the reference has been mended.  `overlooks_missing` has such a module.
-/

namespace StackLinker

namespace Surroundings

open Value

variable {around : Surroundings} {source name : String} {path : Path} {v w : Value}
  {outcome later : Outcome}

/-! ## One pass -/

private theorem mem_unresolved_of_mem_ownUses (hopen : (around.meaning name).isOpen = true)
    (hplain : v.IsPlain around.config) (hname : name ∈ v.ownUses around.config)
    (h : v.Rewrites (around.rule source) path outcome w later) : name ∈ later.unresolved := by
  obtain ⟨form, hform, huses, hexempt⟩ := mem_ownUses.1 hname
  have htarget : ∀ placeholder : Placeholder, form.placeholder? = some placeholder →
      placeholder.name = name → name ∈ later.unresolved := by
    rintro placeholder hplaceholder rfl
    have hsettle := (rewrites_target_iff hform (Form.placeholder?_eq_some hplaceholder)).1 h
    rw [settle_target_eq hplaceholder, Prod.mk.injEq] at hsettle
    exact hsettle.2 ▸ mem_unresolved_note hopen source path outcome
  cases form with
  | reference key =>
      exact htarget ⟨key, none⟩ rfl (List.mem_singleton.1 huses).symm
  | attributeOf key attr =>
      exact htarget ⟨key, some attr⟩ rfl (List.mem_singleton.1 huses).symm
  | substitution pattern arguments =>
      obtain rfl := Form.recognize?_eq_substitution_iff.1 hform
      obtain ⟨done, between, hthread, haction⟩ :=
        (rewrites_template_iff hplain.isReserved_arguments).1 h
      obtain ⟨hmem, hown⟩ := Form.mem_uses_substitution.1 huses
      have hown' : name ∉ Fields.keys ((arguments.map fun _ => done).getD []) := by
        rw [getD_map_of_keys_eq hthread.keys_eq, Fields.keys, hthread.keys_eq]
        exact hown
      have hnumber :=
        hplain.numbers pattern arguments name (self_mem_nodes _) huses hexempt
      obtain ⟨text, filling, hfill, hnotes, -⟩ := substitution_cases around source path
        (template pattern (arguments.map fun _ => done)) pattern (arguments.map fun _ => done)
        between
      have hnoted := @noted_fill around source name path between pattern
        (arguments.map fun _ => done) hmem hown' hnumber hopen
      simp only [settle] at haction
      rwa [hfill, ← hnotes, haction] at hnoted

/-- A pass over a plain value notes every name that is used in it and not settled. -/
theorem mem_unresolved_of_mem_uses (hopen : (around.meaning name).isOpen = true)
    (hplain : v.IsPlain around.config) (hname : name ∈ v.uses around.config)
    (h : v.Rewrites (around.rule source) path outcome w later) : name ∈ later.unresolved := by
  induction v using induction_on_children generalizing path outcome w later with
  | h v ih =>
      rcases mem_uses.1 hname with hown | ⟨child, hchild, hused⟩
      · exact mem_unresolved_of_mem_ownUses hopen hplain hown h
      · have hcompound : v.isCompound = true := by
          cases v <;> first | rfl | simp [children] at hchild
        obtain ⟨parts, between, hthread, hrule⟩ := (rewrites_iff hcompound).1 h
        obtain ⟨y, before, after, -, hpart, -, hafter⟩ :=
          hthread.exists_of_mem_left (fun _ hstep => growsTo_rewrites hstep) hchild
        have hnoted := ih child hchild (hplain.of_mem_children hchild) hused hpart
        exact (trans_of (Outcome.GrowsTo around) hafter (growsTo_rule hrule)).unresolved_subset
          hnoted

/-- What a pass notes and no bound entity has is missing. -/
theorem exists_missing_of_apply (happly : around.apply source v = .ok (w, outcome))
    (hnoted : name ∈ outcome.unresolved) (hbound : name ∉ around.bound) :
    ∃ u ∈ outcome.missing, u.key = name := by
  have hgrows := growsTo_rewrites (apply_eq_ok_iff.1 happly)
  rcases Outcome.mem_unresolved.1 hnoted with hmem | hmem
  · obtain ⟨u, hu, rfl⟩ := List.mem_map.1 hmem
    exact absurd ((hgrows.known u hu).resolve_left (by simp)) hbound
  · exact List.mem_map.1 hmem

end Surroundings

namespace Resolver

open FailureReport (unresolved)

variable {config : Config} {catalog : Catalog} {graph : ModuleGraph} {final : Resolver}
  {report : List Diagnostic} {entity : Entity} {key : String}

/-! ## The report -/

/-- A report consists of what was found in promoted entities, in bound ones, and in
declarations. -/
theorem conclude_eq_error (h : final.conclude = .error (.diagnostics report)) :
    ∃ linked, linkDefinitions final.surroundings final.partition.toGraph.entities = .ok linked ∧
      report = final.diagnostics ++ unresolved final.waiting ++ linked.2 := by
  unfold conclude at h
  simp only at h
  split at h
  · simp at h
  · rename_i linked hlinked
    split at h
    · simp at h
    · exact ⟨linked, hlinked, (LinkFailure.diagnostics.inj (Except.error.inj h)).symm⟩

/-- Whether a report says that a name is missing in an entity. -/
def ReportsMissing (report : List Diagnostic) (entity key : String) : Prop :=
  ∃ d ∈ report, d.kind = .missingReference ∧ d.entity = entity ∧ d.reference = some key

theorem reportsMissing_of_missing {found : List Unresolved} {source : String}
    (h : ∃ u ∈ found, u.key = key)
    (hreport : ∀ u ∈ found, Diagnostic.missingReference source u.key u.path.text ∈ report) :
    ReportsMissing report source key := by
  obtain ⟨u, hu, rfl⟩ := h
  exact ⟨_, hreport u hu, rfl, rfl, rfl⟩

/-- What the latest pass over a bound entity missed is reported. -/
theorem reportsMissing_unresolved {pending : Pending} {outcome : Outcome}
    (hpending : pending ∈ final.waiting) (hattempt : pending.attempt = some outcome)
    (h : ∃ u ∈ outcome.missing, u.key = key) :
    ReportsMissing (unresolved final.waiting) pending.name key := by
  refine reportsMissing_of_missing h fun u hu => ?_
  have hmissing : u ∈ pending.missing := by simpa [Pending.missing, hattempt] using hu
  have hown : Diagnostic.missingReference pending.name u.key u.path.text ∈
      pending.ownDiagnostics :=
    List.mem_append_left _
      (List.mem_map_of_mem (f := fun u => Diagnostic.missingReference _ u.key u.path.text) hmissing)
  simp only [unresolved]
  exact List.mem_append_left _ (List.mem_append_left _ (List.mem_flatMap.2 ⟨_, hpending, hown⟩))

/-! ## References and declarations -/

/-- A sweep that promotes nothing notes what the bound entities miss. -/
theorem reportsMissing_of_step {splicing : Splicing} {before : Resolver} {pending : Pending}
    (hsound : Sound config splicing graph before) (hsafe : SafeTexts config splicing before.free)
    (hstep : before.step = (final, .ok 0)) (hpending : pending ∈ final.waiting)
    (hdepends : graph.DependsOn config pending.name key)
    (hfree : key ∉ Entity.names before.free) (hbound : key ∉ before.surroundings.bound) :
    ReportsMissing (unresolved final.waiting) pending.name key := by
  have hmem : pending ∈ before.remaining := by
    rwa [(step_eq_ok hstep).2.2] at hpending
  obtain ⟨origin, horigin, hkeeps⟩ := List.mem_filterMap.1 hmem
  obtain ⟨value, outcome, happly, -, rfl⟩ := Surroundings.keeps?_eq_some hkeeps
  have hheld := (held_of_tracked hsound.config_eq hsafe (hsound.tracked hsafe) horigin happly
    hdepends).resolve_left hfree
  exact reportsMissing_unresolved hpending rfl
    (Surroundings.exists_missing_of_apply happly hheld.2 hbound)

section Run

variable {partition : Partition} {last : Resolver}

/-- A run that comes to its end ends in a sound state. -/
theorem exists_sound_of_run (hvalid : graph.Valid)
    (hplain : ∀ entity ∈ graph.entities, entity.reference.IsPlain config)
    (hpartition : graph.partition = .ok partition)
    (hrun : (start config catalog partition).run = (last, none))
    (hreadable : graph.IsReadable config ⟨graph.name, last.free⟩) :
    ∃ final, Sound config (graph.insertions config ⟨graph.name, final.free⟩) graph final ∧
      SafeTexts config (graph.insertions config ⟨graph.name, final.free⟩) final.free ∧
      last = { final with settled := true } ∧
      (final.waiting = [] ∨ ∃ before,
        Sound config (graph.insertions config ⟨graph.name, final.free⟩) graph before ∧
        before.step = (final, .ok 0)) := by
  obtain ⟨final, hsound, rfl, hend⟩ := run_invariant sound_step
    (sound_start hvalid.nodup hplain (fun _ hmem _ _ hnode => hreadable.covers hmem hnode)
      hpartition) hrun
  refine ⟨final, hsound, ?_, rfl, hend⟩
  exact hreadable.safeTexts fun origin horigin => ⟨origin, horigin, rfl, rfl⟩

/-- A missing name in a declared reference keeps its entity bound, and is reported. -/
theorem reportsMissing_of_reference (hvalid : graph.Valid)
    (hplain : ∀ entity ∈ graph.entities, entity.reference.IsPlain config)
    (hpartition : graph.partition = .ok partition)
    (hrun : (start config catalog partition).run = (last, none))
    (hreadable : graph.IsReadable config ⟨graph.name, last.free⟩)
    (hentity : entity ∈ graph.entities) (huses : key ∈ entity.reference.uses config)
    (hmissing : key ∉ graph.names) :
    ReportsMissing (unresolved last.waiting) entity.fullName key := by
  obtain ⟨final, hsound, hsafe, rfl, hend⟩ :=
    exists_sound_of_run hvalid hplain hpartition hrun hreadable
  have hdepends : graph.DependsOn config entity.fullName key := ⟨entity, hentity, rfl, huses⟩
  obtain ⟨rounds, hkept⟩ := hsound.kept
  have hnames := (hkept.accounts hvalid).covers
  rcases (hnames entity.fullName).2 (Entity.fullName_mem_names hentity) with hfree | hbound
  · -- The names that a free entity uses stand in front of it.
    obtain ⟨origin, horigin, hname⟩ := List.mem_map.1 hfree
    obtain ⟨front, back, hsplit⟩ := List.append_of_mem horigin
    have hbefore := hsound.ordered hsafe front origin back hsplit key (hname ▸ hdepends)
    refine absurd ((hnames key).1 (Or.inl ?_)) hmissing
    rw [hsplit, Entity.names_append]
    exact List.mem_append_left _ hbefore
  · rw [names_bound] at hbound
    obtain ⟨pending, hpending, hname⟩ := List.mem_map.1 hbound
    rcases hend with hnil | ⟨before, hbefore, hstep⟩
    · simp [hnil] at hpending
    · have hsame := surroundings_of_step hstep
      have hfree : before.free = final.free := (congrArg Surroundings.free hsame).symm
      rw [← hname] at hdepends ⊢
      change ReportsMissing (unresolved final.waiting) pending.name key
      refine reportsMissing_of_step hbefore (hfree.symm ▸ hsafe) hstep hpending hdepends ?_ ?_
      · exact fun hmem => hmissing ((hnames key).1 (Or.inl (hfree ▸ hmem)))
      · rw [← hsame]
        exact fun hmem => hmissing ((hnames key).1 (Or.inr hmem))

end Run

/-- A missing name in the declaration of an entity that has become free is reported. -/
theorem reportsMissing_of_definition {rounds : List (List String)} {v : Value}
    {linked : List Entity × List Diagnostic} (hvalid : graph.Valid)
    (hkept : Kept graph rounds final)
    (hlinked : linkDefinitions final.surroundings final.partition.toGraph.entities = .ok linked)
    (hentity : entity ∈ graph.entities) (hfree : entity.fullName ∈ Entity.names final.free)
    (hdefinition : entity.definition = some v) (hplain : v.IsPlain final.config)
    (huses : key ∈ v.uses final.config) (hmissing : key ∉ graph.names) :
    ReportsMissing linked.2 entity.fullName key := by
  have haccounts := hkept.accounts hvalid
  obtain ⟨value, hvalue⟩ := haccounts.declared entity hentity
  have horigin : entity.withReference value ∈ final.free := by
    rw [Partition.get?_eq_find?, Partition.entities, Entity.find?_append] at hvalue
    obtain ⟨found, hfound⟩ := Entity.exists_find? hfree
    rw [show Entity.find? entity.fullName final.partition.free = some found from hfound,
      Option.some_or, Option.some.injEq] at hvalue
    exact hvalue ▸ Entity.mem_of_find? hfound
  have hgraph : entity.withReference value ∈ final.partition.toGraph.entities :=
    haccounts.graph_entities.mem_iff.2 (List.mem_append_left _ horigin)
  obtain ⟨after, -, own, hlink, hown⟩ :=
    (forall₂_linkDefinitions (show linkDefinitions _ _ = .ok (linked.1, linked.2) from hlinked)
      ).exists_of_mem_left hgraph
  have hopen : (final.surroundings.meaning key).isOpen = true :=
    (Surroundings.mem_names_or_isOpen (Value.not_isExempt_of_mem_uses huses)).resolve_left
      fun hmem => hmissing ((haccounts.covers key).1 (.inl hmem))
  rcases linkFree_eq_ok horigin hlink with ⟨hnone, -⟩ |
    ⟨definition, w, outcome, hsome, happly, -, rfl⟩
  · simp [Entity.withReference, hdefinition] at hnone
  · obtain rfl : v = definition := by
      simpa [Entity.withReference, hdefinition] using hsome
    have hnoted := Surroundings.mem_unresolved_of_mem_uses hopen hplain huses
      (Surroundings.apply_eq_ok_iff.1 happly)
    have hfound := Surroundings.exists_missing_of_apply happly hnoted
    refine reportsMissing_of_missing (hfound ?_) fun u hu => ?_
    · exact fun hmem => hmissing ((haccounts.covers key).1 (.inr hmem))
    · exact hown (List.mem_append_left _ (List.mem_map_of_mem hu))

end Resolver

namespace ModuleGraph

open Resolver (ReportsMissing)

variable {config : Config} {catalog : Catalog} {graph : ModuleGraph} {last : Resolver}
  {report : List Diagnostic} {entity : Entity} {v : Value} {key : String}

/-- If resolution fails with diagnostics, every name that a declared reference uses and that no
entity has is reported, and so is every such name in the declaration of an entity that has become
free. -/
theorem missing_reported_of_resolve (hvalid : graph.Valid)
    (hrun : graph.run? config catalog = some (last, none))
    (h : graph.resolve config catalog = .error (.diagnostics report))
    (hplain : ∀ entity ∈ graph.entities, entity.reference.IsPlain config)
    (hreadable : graph.IsReadable config ⟨graph.name, last.free⟩)
    (hentity : entity ∈ graph.entities)
    (hv : v = entity.reference ∨ (entity.definition = some v ∧ v.IsPlain config ∧
      entity.fullName ∈ Entity.names last.free))
    (huses : key ∈ v.uses config) (hmissing : key ∉ graph.names) :
    ReportsMissing report entity.fullName key := by
  obtain ⟨partition, hpartition, hlast⟩ := Option.map_eq_some_iff.1 hrun
  have hpartition : graph.partition = .ok partition := Resolver.eq_ok_of_toOption hpartition
  have hconclude : last.conclude = .error (.diagnostics report) := by
    rw [resolve, hpartition] at h
    simpa only [Resolver.resolve, hlast, Resolver.finish_of_run hlast] using h
  obtain ⟨linked, hlinked, rfl⟩ := Resolver.conclude_eq_error hconclude
  rcases hv with rfl | ⟨hdefinition, hplain', hfree⟩
  · obtain ⟨d, hd, hsays⟩ := Resolver.reportsMissing_of_reference hvalid hplain hpartition hlast
      hreadable hentity huses hmissing
    exact ⟨d, List.mem_append_left _ (List.mem_append_right _ hd), hsays⟩
  · obtain ⟨final, hsound, -, rfl, -⟩ :=
      Resolver.exists_sound_of_run hvalid hplain hpartition hlast hreadable
    obtain ⟨rounds, hkept⟩ := hsound.kept
    obtain ⟨d, hd, hsays⟩ := Resolver.reportsMissing_of_definition hvalid hkept hlinked hentity
      hfree hdefinition (hsound.config_eq ▸ hplain') (hsound.config_eq ▸ huses) hmissing
    exact ⟨d, List.mem_append_right _ hd, hsays⟩

/-- What resolution of a module with the default settings reports. -/
def findings (graph : ModuleGraph) : List Diagnostic :=
  match graph.resolve {} .permissive with
  | .error (.diagnostics report) => report
  | _ => []

theorem resolve_of_findings (h : graph.findings ≠ []) :
    graph.resolve {} .permissive = .error (.diagnostics graph.findings) := by
  unfold findings at h ⊢
  split at h
  · rename_i report hreport
    simp only [hreport]
  · exact absurd rfl h

/-- A text comes into a pattern that asks for an absent entity as well, an entity waits for it, and
the declaration of a resource asks for another absent entity. -/
def gapped : ModuleGraph where
  name := "Main"
  entities := [
    .value "A" (.string "a"), .value "Y" (.sub "${A}-${Z}" []), .value "W" (.list [.ref "Y"]),
    { fullName := "Queue"
      kind := .resource
      reference := .ref "@Queue"
      definition := some (.record { typeName := "Queue" } (.map [])
        (.map [("Tags", .sub "${A}/${Nada}" [])]))
      typeName := "Queue" }]

/-- The free and bound entities of `gapped`. -/
def gappedPartition : Partition where
  name := "Main"
  order := ["A", "Y", "W", "Queue"]
  free := gapped.entities.take 1
  bound := gapped.entities.drop 1

/-- Where the run from `gappedPartition` ends. -/
def gappedEnd : Resolver := (Resolver.start {} .permissive gappedPartition).run.1

theorem missing_reported_of_resolve_gapped :
    gapped.Valid ∧ gapped.run? {} .permissive = some (gappedEnd, none) ∧
      gapped.resolve {} .permissive = .error (.diagnostics gapped.findings) ∧
      (∀ entity ∈ gapped.entities, entity.reference.IsPlain {}) ∧
      gapped.IsReadable {} ⟨gapped.name, gappedEnd.free⟩ ∧
      ReportsMissing gapped.findings "Y" "Z" ∧ ReportsMissing gapped.findings "Queue" "Nada" := by
  have hvalid : gapped.Valid := ⟨by decide, by decide +kernel⟩
  have hrun : gapped.run? {} .permissive = some (gappedEnd, none) := by
    have hpartition : gapped.partition = .ok gappedPartition := by rfl
    have hnone : (Resolver.start {} .permissive gappedPartition).run.2 = none := by decide +kernel
    rw [run?, hpartition]
    exact congrArg some (Prod.ext rfl hnone)
  have hresolve := @resolve_of_findings gapped (by decide +kernel)
  have hplain : ∀ entity ∈ gapped.entities, entity.reference.IsPlain {} := by
    have hlooks : ∀ entity ∈ gapped.entities, entity.reference.looksPlain {} = true := by
      decide +kernel
    exact fun entity hentity => Value.isPlain_of_looksPlain (hlooks entity hentity)
  have hreadable : gapped.IsReadable {} ⟨gapped.name, gappedEnd.free⟩ :=
    isReadable_of_inserted (by decide +kernel)
  refine ⟨hvalid, hrun, hresolve, hplain, hreadable, ?reference, ?definition⟩
  case reference =>
    have hentity : Entity.value "Y" (.sub "${A}-${Z}" []) ∈ gapped.entities := by
      simp [gapped]
    exact missing_reported_of_resolve hvalid hrun hresolve hplain hreadable hentity (Or.inl rfl)
      (by decide +kernel) (by decide)
  case definition =>
    have hentity : gapped.entities[3] ∈ gapped.entities := by simp [gapped]
    have hdeclaration : (Value.record { typeName := "Queue" } (.map [])
        (.map [("Tags", .sub "${A}/${Nada}" [])])).IsPlain {} :=
      Value.isPlain_of_looksPlain (by decide +kernel)
    exact missing_reported_of_resolve hvalid hrun hresolve hplain hreadable hentity
      (Or.inr ⟨rfl, hdeclaration, by decide +kernel⟩) (by decide +kernel) (by decide)

/-- A list comes into a pattern in front of a placeholder with the name of an added argument, and a
resource misses a name in its reference and another one in its declaration. -/
def overlooked : ModuleGraph where
  name := "Main"
  entities := [
    .value "L" (.list [.string "x"]), .value "V" (.sub "${L}${P0}" []),
    { fullName := "R"
      kind := .resource
      reference := .ref "Zed"
      definition := some (.record { typeName := "Queue" } (.map []) (.map [("Tags", .ref "Nada")]))
      typeName := "Queue" }]

/-- One name that is missing is reported, but neither the one that an added argument captures, nor
the one in the declaration of an entity that stays bound. -/
theorem overlooks_missing :
    overlooked.resolve {} .permissive =
        .error (.diagnostics [.missingReference "R" "Zed" "R"]) ∧
      (∃ entity ∈ overlooked.entities, ∃ key ∈ entity.reference.uses {}, key ∉ overlooked.names ∧
        ¬ ReportsMissing [.missingReference "R" "Zed" "R"] entity.fullName key) ∧
      ∃ entity ∈ overlooked.entities, ∃ definition, entity.definition = some definition ∧
        ∃ key ∈ definition.uses {}, key ∉ overlooked.names ∧
          ¬ ReportsMissing [.missingReference "R" "Zed" "R"] entity.fullName key := by
  have hfindings : overlooked.findings = [.missingReference "R" "Zed" "R"] := by decide +kernel
  have hresolve := @resolve_of_findings overlooked (by simp [hfindings])
  have hreports : ∀ {entity key}, ReportsMissing [.missingReference "R" "Zed" "R"] entity key →
      key = "Zed" := by
    rintro entity key ⟨d, hd, -, -, hkey⟩
    obtain rfl := List.mem_singleton.1 hd
    exact (Option.some.inj hkey).symm
  rw [hfindings] at hresolve
  refine ⟨hresolve, ⟨.value "V" (.sub "${L}${P0}" []), by simp [overlooked], "P0",
    by decide +kernel, by decide, fun h => ?_⟩, overlooked.entities[2], by simp [overlooked], _,
    rfl, "Nada", by decide +kernel, by decide, fun h => ?_⟩
  · exact absurd (hreports h) (by decide)
  · exact absurd (hreports h) (by decide)

end ModuleGraph

end StackLinker
