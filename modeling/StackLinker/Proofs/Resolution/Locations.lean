import StackLinker.Proofs.Dependency.Completeness
import StackLinker.Proofs.Dependency.Inheriting
import StackLinker.Proofs.Resolution.Missing

/-!
# Where faults are reported

Missing names and refused attributes are reported with the entity and the place where they were
found.  A pass finds them where the value asks for them that it goes over, and from the second
iteration on this is no longer the declared one, since values of other entities have come into it.

What the passes preserve is that a bound entity asks for nothing but what it asked for at the same
place when it was declared (`Faithful.asks`).  This holds as long as no value that comes into
another one asks for anything (`Faithful.quiet`).  An entity becomes free when nothing in its
reference is open, so all it can still ask for are attributes that were refused; hence the one
condition on the catalog, `ModuleGraph.GrantsCopied`.

Without that condition a fault is reported twice: once where it is declared, and once more in an
entity into which the reference was copied (`misplaces_findings`).
-/

namespace StackLinker

namespace ModuleGraph

/-- The declared reference of an entity asks for something at a place. -/
def Asks (graph : ModuleGraph) (name : String) (place : Path) (placeholder : Placeholder) : Prop :=
  ∃ entity ∈ graph.entities, entity.fullName = name ∧ entity.reference.Requests place placeholder

/-- The declared reference or the declaration of an entity asks for something at a place. -/
def Declares (graph : ModuleGraph) (name : String) (place : Path) (placeholder : Placeholder) :
    Prop :=
  ∃ entity ∈ graph.entities, entity.fullName = name ∧ ∃ v,
    (v = entity.reference ∨ entity.definition = some v) ∧ v.Requests place placeholder

/-- Some declared reference asks for the value of the entity. -/
def IsCopied (graph : ModuleGraph) (name : String) : Prop :=
  ∃ entity ∈ graph.entities, ⟨name, none⟩ ∈ entity.reference.requested

instance (graph : ModuleGraph) (name : String) : Decidable (graph.IsCopied name) :=
  inferInstanceAs (Decidable (∃ entity ∈ graph.entities, _ ∈ entity.reference.requested))

/-- The attributes are granted that are asked for in references which other entities ask for. -/
def GrantsCopied (config : Config) (catalog : Catalog) (graph : ModuleGraph) : Prop :=
  ∀ entity ∈ graph.entities, graph.IsCopied entity.fullName →
    ∀ placeholder ∈ entity.reference.requested, config.isExempt placeholder.name = false →
      ∀ attr ∈ placeholder.attr, ∀ target ∈ graph.entities, target.fullName = placeholder.name →
        target.offers catalog attr = true

instance (config : Config) (catalog : Catalog) (graph : ModuleGraph) :
    Decidable (graph.GrantsCopied config catalog) :=
  inferInstanceAs (Decidable (∀ entity ∈ graph.entities, graph.IsCopied entity.fullName →
    ∀ placeholder ∈ entity.reference.requested, config.isExempt placeholder.name = false →
      ∀ attr ∈ placeholder.attr, ∀ target ∈ graph.entities, target.fullName = placeholder.name →
        target.offers catalog attr = true))

/-- A diagnostic about something that its entity asks for at its place. -/
structure Locates (graph : ModuleGraph) (place : Path) (placeholder : Placeholder)
    (d : Diagnostic) : Prop where
  declared : graph.Declares d.entity place placeholder
  location : d.location = some (Path.text (d.entity :: place))
  reference : d.reference = some placeholder.name

/-- A diagnostic about a name that no entity has, or an attribute that its target does not offer,
and that its entity asks for at its place. -/
def IsAccurate (catalog : Catalog) (graph : ModuleGraph) (d : Diagnostic) : Prop :=
  ∃ place placeholder, graph.Locates place placeholder d ∧
    ((d.kind = .missingReference ∧ placeholder.name ∉ graph.names) ∨
      (d.kind = .invalidAttribute ∧ ∃ target ∈ graph.entities, ∃ attr,
        target.fullName = placeholder.name ∧ placeholder.attr = some attr ∧
          target.offers catalog attr = false))

variable {graph : ModuleGraph} {name : String} {place : Path} {placeholder : Placeholder}

theorem Asks.declares (h : graph.Asks name place placeholder) :
    graph.Declares name place placeholder := by
  obtain ⟨entity, hentity, hname, hrequest⟩ := h
  exact ⟨entity, hentity, hname, _, Or.inl rfl, hrequest⟩

end ModuleGraph

/-- A well-formed value in which no argument map is itself a form. -/
structure Value.IsOrdinary (v : Value) : Prop where
  wellFormed : v.isWellFormed = true
  arguments : ∀ pattern arguments, template pattern (some arguments) ∈ v.nodes →
    Fields.isReserved arguments = false

/-- A single pass needs no more. -/
theorem Value.IsOrdinary.tame {v : Value} (h : v.IsOrdinary) (config : Config) :
    v.IsTame config ⟨fun _ => True, True⟩ :=
  isTame_of_isWellFormed h.wellFormed h.arguments
    fun _ _ _ => ⟨Or.inr trivial, fun _ _ _ => trivial⟩

/-- What a pass over a value of an entity reports. -/
def Outcome.findings (source : String) (outcome : Outcome) : List Diagnostic :=
  (outcome.missing.map fun u => .missingReference source u.key u.path.text) ++ outcome.invalid

@[simp] theorem Entity.offers_withReference (catalog : Catalog) (entity : Entity) (value : Value)
    (attr : String) :
    (entity.withReference value).offers catalog attr = entity.offers catalog attr :=
  rfl

namespace Resolver

open FailureReport (unresolved)

variable {config : Config} {catalog : Catalog} {graph : ModuleGraph} {resolver next : Resolver}
  {n : Nat} {rounds : List (List String)}

/-! ## One pass -/

/-- An attribute that is refused has a declared target, which does not offer it. -/
theorem Kept.exists_target_of_refuses {source : String} {path : Path} {placeholder : Placeholder}
    {d : Diagnostic} (hkept : Kept graph rounds resolver)
    (h : resolver.surroundings.Refuses source path placeholder d) :
    resolver.config.isExempt placeholder.name = false ∧ ∃ target ∈ graph.entities, ∃ attr,
      target.fullName = placeholder.name ∧ placeholder.attr = some attr ∧
        target.offers resolver.catalog attr = false := by
  obtain ⟨target, attr, hfree, hattr, hdenied⟩ := h.denied
  obtain ⟨hexempt, hfind⟩ := Surroundings.meaning_eq_free_iff.1 hfree
  obtain ⟨origin, horigin, heq⟩ :=
    hkept.declared target (List.mem_append_left _ (Entity.mem_of_find? hfind))
  have hname := Entity.fullName_of_find? hfind
  rw [heq, Entity.fullName_withReference] at hname
  rw [heq, Entity.offers_withReference] at hdenied
  exact ⟨hexempt, origin, horigin, attr, hname, hattr, hdenied⟩

/-- What is about declared requests is accurate. -/
theorem isAccurate_of_isAbout {source : String} {asked : Path → Placeholder → Prop}
    {outcome : Outcome} (hkept : Kept graph rounds resolver)
    (hasked : ∀ path placeholder, asked path placeholder →
      resolver.config.isExempt placeholder.name = false →
        ∃ place, path = source :: place ∧ graph.Declares source place placeholder)
    (h : outcome.IsAbout resolver.surroundings source asked) :
    ∀ d ∈ outcome.findings source, graph.IsAccurate resolver.catalog d := by
  intro d hd
  rcases List.mem_append.1 hd with hd | hd
  · obtain ⟨u, hu, rfl⟩ := List.mem_map.1 hd
    obtain ⟨placeholder, hask, hkey, hmissing⟩ := h.missing u hu
    obtain ⟨hexempt, hfree, hbound⟩ := Surroundings.meaning_eq_missing_iff.1 hmissing
    obtain ⟨place, hpath, hdeclares⟩ := hasked _ _ hask hexempt
    refine ⟨place, placeholder, ⟨hdeclares, congrArg some (congrArg _ hpath), congrArg some hkey⟩,
      Or.inl ⟨rfl, fun hmem => ?_⟩⟩
    have hnow := hkept.perm.mem_iff.2 hmem
    rw [Entity.names_append, List.mem_append] at hnow
    exact hnow.elim (Entity.find?_eq_none_iff.1 hfree) hbound
  · obtain ⟨path, placeholder, hask, hrefuses⟩ := h.invalid d hd
    obtain ⟨hexempt, htarget⟩ := hkept.exists_target_of_refuses hrefuses
    obtain ⟨place, rfl, hdeclares⟩ := hasked _ _ hask hexempt
    exact ⟨place, placeholder, ⟨hrefuses.entity ▸ hdeclares, hrefuses.entity ▸ hrefuses.location,
      hrefuses.reference⟩, Or.inr ⟨hrefuses.kind, htarget⟩⟩

/-! ## The invariant -/

/-- What the steps of a resolver preserve while no request comes into another reference. -/
structure Faithful (config : Config) (catalog : Catalog) (graph : ModuleGraph)
    (resolver : Resolver) : Prop where
  advances : Advances config graph resolver
  catalog_eq : resolver.catalog = catalog
  /-- A bound entity asks only for what its declared reference asks for at the same place. -/
  asks : ∀ entity ∈ resolver.bound, ∀ place placeholder,
    entity.reference.Requests place placeholder → config.isExempt placeholder.name = false →
      graph.Asks entity.fullName place placeholder
  /-- A free entity whose value is asked for does not ask for anything. -/
  quiet : ∀ entity ∈ resolver.free, graph.IsCopied entity.fullName → ∀ place placeholder,
    entity.reference.Requests place placeholder → config.isExempt placeholder.name = true
  recorded : ∀ d ∈ resolver.diagnostics, graph.IsAccurate catalog d
  noted : ∀ pending ∈ resolver.waiting, ∀ d ∈ pending.ownDiagnostics, graph.IsAccurate catalog d

theorem faithful_start {partition : Partition} (hstarts : Starts config graph)
    (h : graph.partition = .ok partition) (catalog : Catalog) :
    Faithful config catalog graph (start config catalog partition) := by
  have hadvances := advances_start hstarts h catalog
  refine ⟨hadvances, rfl, ?asks, ?quiet, by simp [start], ?noted⟩
  case asks =>
    intro entity hentity place placeholder hrequest _
    exact ⟨entity, mem_entities_of_start h (List.mem_append_right _ hentity), rfl, hrequest⟩
  case quiet =>
    -- What is free by its shape asks for nothing.
    intro entity hentity _ place placeholder hrequest
    exact absurd hrequest (Value.not_requests_of_classify (classify_of_start h hentity))
  case noted =>
    intro pending hpending d hd
    obtain ⟨entity, -, rfl⟩ := List.mem_map.1 hpending
    simp [Pending.ownDiagnostics, Pending.missing, Pending.invalid] at hd

section Pass

variable {pending : Pending} {value : Value} {outcome : Outcome}

/-- What a pass over a bound entity finds is about the declared reference. -/
theorem Faithful.isAbout (h : Faithful config catalog graph resolver)
    (hpending : pending ∈ resolver.waiting)
    (happly : resolver.surroundings.apply pending.entity.fullName pending.entity.reference =
      .ok (value, outcome)) :
    outcome.IsAbout resolver.surroundings pending.name fun path placeholder =>
      config.isExempt placeholder.name = false →
        ∃ place, path = pending.name :: place ∧ graph.Asks pending.name place placeholder :=
  Surroundings.isAbout_of_apply (h.advances.tame_pending hpending) happly
    fun place placeholder hrequest hexempt =>
      ⟨place, rfl, h.asks _ (List.mem_map_of_mem hpending) place placeholder hrequest hexempt⟩

theorem Faithful.isAccurate (h : Faithful config catalog graph resolver)
    (hpending : pending ∈ resolver.waiting)
    (happly : resolver.surroundings.apply pending.entity.fullName pending.entity.reference =
      .ok (value, outcome)) : ∀ d ∈ outcome.findings pending.name, graph.IsAccurate catalog d := by
  obtain ⟨rounds, hkept⟩ := h.advances.kept
  rw [← h.catalog_eq]
  refine isAccurate_of_isAbout hkept (fun path placeholder hasked hexempt => ?_)
    (h.isAbout hpending happly)
  rw [h.advances.config_eq] at hexempt
  obtain ⟨place, hpath, hasks⟩ := hasked hexempt
  exact ⟨place, hpath, hasks.declares⟩

/-- What a bound entity asks for after a pass, it asked for before at the same place, and the pass
found something. -/
theorem Faithful.requests (hstarts : Starts config graph)
    (h : Faithful config catalog graph resolver) (hpending : pending ∈ resolver.waiting)
    (happly : resolver.surroundings.apply pending.entity.fullName pending.entity.reference =
      .ok (value, outcome)) {place : Path} {placeholder : Placeholder}
    (hrequest : value.Requests place placeholder)
    (hexempt : config.isExempt placeholder.name = false) :
    pending.entity.reference.Requests place placeholder ∧ ¬ outcome.IsClean := by
  have hconfig : resolver.surroundings.config = config := h.advances.config_eq
  refine (Surroundings.inherits_of_rewrites (h.advances.calm hstarts)
    (h.advances.tame_pending hpending) (Surroundings.apply_eq_ok_iff.1 happly) hrequest
    (hconfig.symm ▸ hexempt)).resolve_right ?_
  -- A request cannot come from a free entity, whose value the bound one would have copied.
  rintro ⟨key, target, outside, inside, hasks, hfree, hinside⟩
  obtain ⟨hkey, hfind⟩ := Surroundings.meaning_eq_free_iff.1 hfree
  obtain ⟨entity, hentity, -, hdeclared⟩ :=
    h.asks _ (List.mem_map_of_mem hpending) outside _ hasks (hconfig ▸ hkey)
  have hcopied : graph.IsCopied key :=
    ⟨entity, hentity, Value.mem_requested_iff.2 ⟨outside, hdeclared⟩⟩
  have hquiet := h.quiet target (Entity.mem_of_find? hfind)
    ((Entity.fullName_of_find? hfind).symm ▸ hcopied) inside placeholder hinside
  exact absurd (hquiet.symm.trans hexempt) (by simp)

/-- If all attributes that the declared reference asks for are offered, a pass refuses none. -/
theorem Faithful.invalid_eq_nil (h : Faithful config catalog graph resolver)
    (hpending : pending ∈ resolver.waiting)
    (happly : resolver.surroundings.apply pending.entity.fullName pending.entity.reference =
      .ok (value, outcome))
    (hoffers : ∀ entity ∈ graph.entities, entity.fullName = pending.name →
      ∀ placeholder ∈ entity.reference.requested, config.isExempt placeholder.name = false →
        ∀ attr ∈ placeholder.attr, ∀ target ∈ graph.entities, target.fullName = placeholder.name →
          target.offers catalog attr = true) : outcome.invalid = [] := by
  refine List.eq_nil_iff_forall_not_mem.2 fun d hd => ?_
  obtain ⟨path, placeholder, hasked, hrefuses⟩ := (h.isAbout hpending happly).invalid d hd
  obtain ⟨rounds, hkept⟩ := h.advances.kept
  obtain ⟨hexempt, target, htarget, attr, hname, hattr, hdenied⟩ :=
    hkept.exists_target_of_refuses hrefuses
  rw [h.advances.config_eq] at hexempt
  obtain ⟨place, -, entity, hentity, hsame, hdeclared⟩ := hasked hexempt
  have hgranted := hoffers entity hentity hsame placeholder
    (Value.mem_requested_iff.2 ⟨place, hdeclared⟩) hexempt attr hattr target htarget hname
  rw [h.catalog_eq, hgranted] at hdenied
  exact absurd hdenied (by simp)

/-- In a reference that is asked for, nothing is refused. -/
theorem Faithful.isClean_of_isCopied (hgrants : graph.GrantsCopied config catalog)
    (h : Faithful config catalog graph resolver) (hpending : pending ∈ resolver.waiting)
    (happly : resolver.surroundings.apply pending.entity.fullName pending.entity.reference =
      .ok (value, outcome)) (hresolved : outcome.isResolved = true)
    (hcopied : graph.IsCopied pending.name) : outcome.IsClean :=
  ⟨Outcome.isResolved_iff.1 hresolved, h.invalid_eq_nil hpending happly fun entity hentity hname =>
    hgrants entity hentity (hname ▸ hcopied)⟩

end Pass

theorem Faithful.step (hstarts : Starts config graph) (hgrants : graph.GrantsCopied config catalog)
    (h : Faithful config catalog graph resolver) (hstep : resolver.step = (next, .ok n)) :
    Faithful config catalog graph next := by
  refine ⟨h.advances.step hstarts hstep, ?catalog, ?asks, ?quiet, ?recorded, ?noted⟩
  case catalog =>
    obtain ⟨-, -, rfl⟩ := step_eq_ok hstep
    exact h.catalog_eq
  case asks =>
    intro entity hentity place placeholder hrequest hexempt
    obtain ⟨kept, hkept, rfl⟩ := List.mem_map.1 hentity
    obtain ⟨pending, hpending, value, outcome, happly, -, rfl⟩ := of_mem_waiting_step hstep hkept
    have hbefore := (h.requests hstarts hpending happly hrequest hexempt).1
    exact h.asks _ (List.mem_map_of_mem hpending) place placeholder hbefore hexempt
  case quiet =>
    intro entity hentity hcopied place placeholder hrequest
    rcases of_mem_free_step hstep hentity with
      hold | ⟨pending, hpending, value, outcome, happly, hresolved, rfl⟩
    · exact h.quiet entity hold hcopied place placeholder hrequest
    · have hclean := h.isClean_of_isCopied hgrants hpending happly hresolved hcopied
      rw [← Bool.not_eq_false]
      exact fun hexempt => (h.requests hstarts hpending happly hrequest hexempt).2 hclean
  case recorded =>
    intro d hd
    rw [(step_eq_ok hstep).2.2] at hd
    refine (List.mem_append.1 hd).elim (h.recorded d) fun hnew => ?_
    obtain ⟨promoted, hmem, hinvalid⟩ := List.mem_flatMap.1 hnew
    obtain ⟨pending, hpending, hpromotes⟩ := List.mem_filterMap.1 hmem
    obtain ⟨value, outcome, happly, -, rfl⟩ := Surroundings.promotes?_eq_some hpromotes
    exact h.isAccurate hpending happly d (List.mem_append_right _ hinvalid)
  case noted =>
    intro kept hkept d hd
    obtain ⟨pending, hpending, value, outcome, happly, -, rfl⟩ := of_mem_waiting_step hstep hkept
    exact h.isAccurate hpending happly d hd

/-! ## The report -/

/-- What is missing or refused in the entities that stay bound was found in one of them. -/
theorem exists_mem_ownDiagnostics {waiting : List Pending} {d : Diagnostic}
    (hd : d ∈ unresolved waiting)
    (hkind : d.kind = .missingReference ∨ d.kind = .invalidAttribute) :
    ∃ pending ∈ waiting, d ∈ pending.ownDiagnostics := by
  simp only [unresolved, List.mem_append] at hd
  rcases hd with (hown | hcircular) | hblocked
  · exact List.mem_flatMap.1 hown
  · simp [FailureReport.kind_circular _ _ d hcircular] at hkind
  · simp [FailureReport.kind_blocked _ _ d hblocked] at hkind

private theorem exists_apply_of_mem_linkFree {around : Surroundings} {entity : Entity}
    {linked : Entity × List Diagnostic} {d : Diagnostic} (h : linkFree around entity = .ok linked)
    (hd : d ∈ linked.2) : ∃ definition value outcome, entity.definition = some definition ∧
      around.apply entity.fullName definition = .ok (value, outcome) ∧
      d ∈ outcome.findings entity.fullName := by
  unfold linkFree linkDefinition at h
  split at h
  · split at h
    · obtain rfl := Except.ok.inj h
      simp at hd
    · rename_i definition hdefinition
      cases happly : around.apply entity.fullName definition with
      | error e => simp [happly, Except.map] at h
      | ok applied =>
          rw [happly] at h
          obtain rfl := Except.ok.inj h
          exact ⟨definition, applied.1, applied.2, hdefinition, happly, hd⟩
  · obtain rfl := Except.ok.inj h
    simp at hd

/-- What is reported in declarations was found by a pass over one of them. -/
theorem exists_apply_of_mem_linkDefinitions {around : Surroundings} {entities : List Entity}
    {linked : List Entity × List Diagnostic} {d : Diagnostic}
    (h : linkDefinitions around entities = .ok linked) (hd : d ∈ linked.2) :
    ∃ entity ∈ entities, ∃ definition value outcome, entity.definition = some definition ∧
      around.apply entity.fullName definition = .ok (value, outcome) ∧
      d ∈ outcome.findings entity.fullName := by
  induction entities generalizing linked with
  | nil =>
      obtain rfl := Except.ok.inj h
      simp at hd
  | cons first rest ih =>
      rw [linkDefinitions] at h
      split at h
      · simp at h
      · rename_i own hown
        cases hrest : linkDefinitions around rest with
        | error e => simp [hrest, Except.map] at h
        | ok others =>
            obtain rfl : (own.1 :: others.1, own.2 ++ others.2) = linked := by
              simpa [hrest, Except.map] using h
            rcases List.mem_append.1 hd with hd | hd
            · exact ⟨first, List.mem_cons_self, exists_apply_of_mem_linkFree hown hd⟩
            · obtain ⟨entity, hentity, hfound⟩ := ih hrest hd
              exact ⟨entity, List.mem_cons_of_mem _ hentity, hfound⟩

/-- What is reported in declarations is accurate, since one pass goes over each of them. -/
theorem isAccurate_of_mem_linkDefinitions (hvalid : graph.Valid)
    (hkept : Kept graph rounds resolver)
    (hordinary : ∀ entity ∈ graph.entities, ∀ v, entity.definition = some v → v.IsOrdinary)
    {linked : List Entity × List Diagnostic}
    (h : linkDefinitions resolver.surroundings resolver.partition.toGraph.entities = .ok linked) :
    ∀ d ∈ linked.2, graph.IsAccurate resolver.catalog d := by
  intro d hd
  obtain ⟨entity, hentity, definition, value, outcome, hdefinition, happly, hfound⟩ :=
    exists_apply_of_mem_linkDefinitions h hd
  -- Resolution does not change what is declared.
  obtain ⟨origin, horigin, heq⟩ := hkept.declared entity
    ((hkept.accounts hvalid).graph_entities.mem_iff.1 hentity)
  rw [heq, Entity.definition_withReference] at hdefinition
  rw [heq, Entity.fullName_withReference] at happly hfound
  have htame := (hordinary origin horigin definition hdefinition).tame resolver.config
  have habout : outcome.IsAbout resolver.surroundings origin.fullName fun path placeholder =>
      ∃ place, path = origin.fullName :: place ∧ graph.Declares origin.fullName place placeholder :=
    Surroundings.isAbout_of_apply htame happly fun place _ hrequest =>
      ⟨place, rfl, origin, horigin, rfl, definition, Or.inr hdefinition, hrequest⟩
  exact isAccurate_of_isAbout hkept (fun _ _ hasked _ => hasked) habout d hfound

end Resolver

namespace ModuleGraph

variable {config : Config} {catalog : Catalog} {graph : ModuleGraph} {report : List Diagnostic}

/-- Resolution that fails with diagnostics comes to the end of a run, and the report is drawn up
there. -/
theorem exists_run_of_resolve (h : graph.resolve config catalog = .error (.diagnostics report)) :
    ∃ partition last, graph.partition = .ok partition ∧
      (Resolver.start config catalog partition).run = (last, none) ∧
      last.conclude = .error (.diagnostics report) := by
  unfold resolve at h
  split at h
  · simp at h
  · rename_i partition hpartition
    unfold Resolver.resolve at h
    simp only at h
    split at h
    · simp at h
    · rename_i hnone
      have hrun : (Resolver.start config catalog partition).run =
          ((Resolver.start config catalog partition).run.1, none) := Prod.ext rfl hnone
      rw [Resolver.finish_of_run hrun] at h
      exact ⟨partition, _, hpartition, hrun, h⟩

/-- If the references that are asked for ask for no attribute that is refused, every missing name
and every refused attribute is reported with an entity and a place at which its declared reference
or its declaration asks for it. -/
theorem accurate_of_resolve (hstarts : Resolver.Starts config graph)
    (hgrants : graph.GrantsCopied config catalog)
    (hordinary : ∀ entity ∈ graph.entities, ∀ v, entity.definition = some v → v.IsOrdinary)
    (h : graph.resolve config catalog = .error (.diagnostics report)) {d : Diagnostic}
    (hd : d ∈ report) (hkind : d.kind = .missingReference ∨ d.kind = .invalidAttribute) :
    graph.IsAccurate catalog d := by
  obtain ⟨partition, last, hpartition, hrun, hconclude⟩ := exists_run_of_resolve h
  obtain ⟨final, hfaithful, rfl, -⟩ := Resolver.run_invariant
    (Resolver.Faithful.step hstarts hgrants) (Resolver.faithful_start hstarts hpartition catalog)
    hrun
  obtain ⟨linked, hlinked, rfl⟩ := Resolver.conclude_eq_error hconclude
  simp only [List.mem_append] at hd
  rcases hd with (hrecorded | hunresolved) | hlink
  · exact hfaithful.recorded d hrecorded
  · obtain ⟨pending, hpending, hown⟩ := Resolver.exists_mem_ownDiagnostics hunresolved hkind
    exact hfaithful.noted pending hpending d hown
  · obtain ⟨rounds, hkept⟩ := hfaithful.advances.kept
    exact hfaithful.catalog_eq ▸
      Resolver.isAccurate_of_mem_linkDefinitions hstarts.valid hkept hordinary hlinked d hlink

/-- A reference that is copied, one in which a name is missing, one in which an attribute is
refused, and a declaration in which a name is missing. -/
def spotted : ModuleGraph where
  name := "Main"
  entities := [
    .value "A" (.string "a"), .value "B" (.ref "A"), .value "Y" (.sub "${B}-${Z}" []),
    .value "W" (.list [.ref "B", .getAtt "A" "Arn"]),
    { fullName := "Queue"
      kind := .resource
      reference := .ref "@Queue"
      definition := some (.record { typeName := "Queue" } (.map [])
        (.map [("Tags", .sub "${A}/${Nada}" [])]))
      typeName := "Queue" }]

theorem accurate_of_resolve_spotted :
    Resolver.Starts {} spotted ∧ spotted.GrantsCopied {} .permissive ∧
      (∀ entity ∈ spotted.entities, ∀ v, entity.definition = some v → v.IsOrdinary) ∧
      spotted.resolve {} .permissive = .error (.diagnostics spotted.findings) ∧
      (spotted.findings.map fun d => (d.kind, d.location)) =
        [(.invalidAttribute, some "W/1"), (.missingReference, some "Y"),
          (.missingReference, some "Queue/Properties/Tags")] ∧
      ∀ d ∈ spotted.findings, spotted.IsAccurate .permissive d := by
  have hvalid : spotted.Valid := ⟨by decide, by decide +kernel⟩
  have hmarkers : ({} : Config).HasPlainMarkers := by
    constructor <;> decide
  have hwell : ∀ entity ∈ spotted.entities, entity.reference.isWellFormed = true := by
    decide +kernel
  have hstarts : Resolver.Starts {} spotted :=
    ⟨hvalid, by decide, hmarkers, hwell, isRegular_of_isHarmless {} (by decide +kernel)⟩
  have hgrants : spotted.GrantsCopied {} .permissive := by decide +kernel
  have hordinary : ∀ entity ∈ spotted.entities, ∀ v, entity.definition = some v → v.IsOrdinary := by
    have hlooks : ∀ entity ∈ spotted.entities, ∀ v ∈ entity.definition,
        v.isWellFormed = true ∧ v.looksPlain {} = true := by
      decide +kernel
    intro entity hentity v hv
    obtain ⟨hwell, hplain⟩ := hlooks entity hentity v hv
    exact ⟨hwell, fun pattern => (Value.isPlain_of_looksPlain hplain).arguments (.string pattern)⟩
  have hresolve := @resolve_of_findings spotted (by decide +kernel)
  have hkinds : ∀ d ∈ spotted.findings,
      d.kind = .missingReference ∨ d.kind = .invalidAttribute := by
    decide +kernel
  exact ⟨hstarts, hgrants, hordinary, hresolve, by decide +kernel, fun d hd =>
    accurate_of_resolve hstarts hgrants hordinary hresolve hd (hkinds d hd)⟩

/-- An entity asks for the value of another one in which an attribute is refused, and it has to wait
for a name that is missing. -/
def misplaced : ModuleGraph where
  name := "Main"
  entities := [
    .value "V" (.string "v"), .value "B" (.ref "V"), .value "C" (.ref "B"),
    .value "A" (.getAtt "V" "Arn"), .value "X" (.list [.ref "A", .ref "Nope"])]

/-- The refused attribute is reported once more, for an entity that asks for no such thing. -/
theorem misplaces_findings :
    misplaced.resolve {} .permissive = .error (.diagnostics misplaced.findings) ∧
      ∃ d ∈ misplaced.findings, d.kind = .invalidAttribute ∧ d.entity = "X" ∧
        d.location = some "X/0" ∧ d.reference = some "V" ∧
        ∀ place placeholder, misplaced.Declares "X" place placeholder → placeholder.name ≠ "V" := by
  have hfound : ∃ d ∈ misplaced.findings, d.kind = .invalidAttribute ∧ d.entity = "X" ∧
      d.location = some "X/0" ∧ d.reference = some "V" := by
    decide +kernel
  obtain ⟨d, hd, hkind, hentity, hlocation, hreference⟩ := hfound
  refine ⟨resolve_of_findings (List.ne_nil_of_mem hd), d, hd, hkind, hentity, hlocation, hreference,
    ?_⟩
  rintro place placeholder ⟨entity, hmem, hname, v, hv, hrequest⟩
  have hdefinitions : ∀ entity ∈ misplaced.entities, entity.definition = none := by
    decide
  have hrequested : ∀ entity ∈ misplaced.entities, entity.fullName = "X" →
      ∀ placeholder ∈ entity.reference.requested, placeholder.name ≠ "V" := by
    decide +kernel
  rcases hv with rfl | hv
  · exact hrequested entity hmem hname placeholder (Value.mem_requested_iff.2 ⟨place, hrequest⟩)
  · rw [hdefinitions entity hmem] at hv
    simp at hv

end ModuleGraph

end StackLinker
