import StackLinker.Proofs.Dependency.Reducing
import StackLinker.Proofs.Form.WellFormed
import StackLinker.Proofs.Resolution.Accounting

/-!
# Closed and acyclic modules are resolved

If every declared dependency is met and none leads back to where it started, a run leaves nothing
bound, and it takes at most one iteration for each entity (`run_completes`).

The argument goes by steps.  Among the bound entities there is one that depends on no other bound
entity; whatever it still uses is free, so the next sweep notes nothing in it and promotes it
(`Advances.promotions_ne_nil`).  This needs that what a bound entity uses at present was declared or
is free (`Advances.uses`), in other words that passes add no dependency, and this is where the
conditions on the declared references come from.  They concern argument maps that are themselves
forms, and the values that are put into patterns (`ModuleGraph.IsRegular`); the markers of the
configuration have to be plain as well.  `stops_short` shows for each condition a module that is not
resolved without it.
-/

namespace StackLinker

/-! ## Declared references -/

namespace Value

variable {config : Config} {splicing : Splicing} {v : Value}

private theorem isTame_template
    (hordinary : ∀ pattern arguments, template pattern (some arguments) ∈ v.nodes →
      Fields.isReserved arguments = false)
    (hsafe : ∀ pattern arguments, template pattern arguments ∈ v.nodes →
      (Pattern.isSpaced (Pattern.pieces pattern) = true ∨ splicing.solid) ∧
        ∀ name ∈ (Form.substitution pattern arguments).uses, config.isExempt name = false →
          splicing.names name)
    {pattern : String} {arguments : Option (Fields Value)}
    (hnode : template pattern arguments ∈ v.nodes)
    (hparts : ∀ child ∈ (template pattern arguments).children, child.2.IsTame config splicing) :
    (template pattern arguments).IsTame config splicing := by
  obtain ⟨hjoin, hnames⟩ := hsafe pattern arguments hnode
  cases arguments with
  | none => exact .template hjoin hnames rfl (by simp)
  | some arguments =>
      -- The arguments stand in the map behind the pattern.
      have hmap : (Value.map arguments).isReserved = false := hordinary pattern arguments hnode
      have hpair := (hparts _ List.mem_cons_self).children rfl ("1", .map arguments)
        (List.mem_cons_of_mem _ List.mem_cons_self)
      exact .template hjoin hnames hmap (hpair.children hmap)

/-- A well-formed value is tame if no argument map is itself a form and its patterns are safe to put
values into. -/
theorem isTame_of_isWellFormed (hwell : v.isWellFormed = true)
    (hordinary : ∀ pattern arguments, template pattern (some arguments) ∈ v.nodes →
      Fields.isReserved arguments = false)
    (hsafe : ∀ pattern arguments, template pattern arguments ∈ v.nodes →
      (Pattern.isSpaced (Pattern.pieces pattern) = true ∨ splicing.solid) ∧
        ∀ name ∈ (Form.substitution pattern arguments).uses, config.isExempt name = false →
          splicing.names name) : v.IsTame config splicing := by
  rw [isWellFormed_iff] at hwell
  suffices h : ∀ w : Value, (∀ node ∈ w.nodes, node ∈ v.nodes) → w.IsTame config splicing from
    h v fun _ => id
  intro w hnodes
  induction w using induction_on_children with
  | h w ih =>
      have hparts : ∀ child ∈ w.children, child.2.IsTame config splicing :=
        fun child hchild => ih child hchild fun node hnode =>
          hnodes node (mem_nodes_of_mem_children hchild hnode)
      have hself := hnodes w (self_mem_nodes w)
      obtain ⟨hnull, found, hform⟩ := hwell w hself
      cases found with
      | some form =>
          cases form with
          | reference key => exact .target hform rfl
          | attributeOf key attr => exact .target hform rfl
          | substitution pattern arguments =>
              obtain rfl := Form.recognize?_eq_substitution_iff.1 hform
              exact isTame_template hordinary hsafe hself hparts
      | none =>
          have hplain := Form.isReserved_eq_false_of_recognize? hform
          cases w with
          | null => exact absurd rfl hnull
          | scalar s => exact .scalar s
          | _ => exact .ordinary rfl hplain hparts

end Value

namespace ModuleGraph

open Value

/-- The names whose values may be put into patterns: those that placeholders ask for, and those that
such an entity forwards because its reference is itself a reference or an attribute. -/
inductive IsSpliced (config : Config) (graph : ModuleGraph) : String → Prop
  | placeholder {entity : Entity} {pattern name : String} {arguments : Option (Fields Value)}
      (hentity : entity ∈ graph.entities)
      (hnode : Value.template pattern arguments ∈ entity.reference.nodes)
      (hname : name ∈ (Form.substitution pattern arguments).uses)
      (hexempt : config.isExempt name = false) : IsSpliced config graph name
  | forward {entity : Entity} {form : Form} {placeholder : Placeholder}
      (h : IsSpliced config graph entity.fullName) (hentity : entity ∈ graph.entities)
      (hform : Form.recognize? entity.reference = .ok (some form))
      (hplaceholder : form.placeholder? = some placeholder)
      (hexempt : config.isExempt placeholder.name = false) :
      IsSpliced config graph placeholder.name

/-- The conditions under which no pass over the references of a module adds a dependency. -/
structure IsRegular (config : Config) (graph : ModuleGraph) : Prop where
  /-- No argument map is itself a form. -/
  arguments : ∀ entity ∈ graph.entities, ∀ pattern arguments,
    Value.template pattern (some arguments) ∈ entity.reference.nodes →
      Fields.isReserved arguments = false
  /-- Texts that may be put into patterns can be followed by anything. -/
  closed : ∀ entity ∈ graph.entities, graph.IsSpliced config entity.fullName →
    ∀ text, entity.reference.written? = some text → Pattern.isClosed text = true
  holes : ∀ entity ∈ graph.entities, graph.IsSpliced config entity.fullName →
    ∀ s, entity.reference = .scalar s → Pattern.hasHoles s.text = false
  /-- What may be written as a placeholder is read up to its end. -/
  braces : ∀ entity ∈ graph.entities, graph.IsSpliced config entity.fullName →
    ∀ form placeholder, Form.recognize? entity.reference = .ok (some form) →
      form.placeholder? = some placeholder → '}' ∉ Pattern.inner placeholder
  /-- No placeholder stands behind a literal dollar sign, or the texts that may be put into patterns
  are neither empty nor start with a brace. -/
  join : (∀ entity ∈ graph.entities, ∀ pattern arguments,
      Value.template pattern arguments ∈ entity.reference.nodes →
        Pattern.isSpaced (Pattern.pieces pattern) = true) ∨
    ∀ entity ∈ graph.entities, graph.IsSpliced config entity.fullName →
      ∀ text, entity.reference.written? = some text → Pattern.isSolid text.toList = true

/-- What is known of the values that are put into the patterns of a module. -/
def splicing (config : Config) (graph : ModuleGraph) : Splicing where
  names := graph.IsSpliced config
  solid := ∀ entity ∈ graph.entities, graph.IsSpliced config entity.fullName →
    ∀ text, entity.reference.written? = some text → Pattern.isSolid text.toList = true

variable {config : Config} {graph : ModuleGraph} {entity : Entity}

theorem IsRegular.spliceable (hregular : graph.IsRegular config) (hentity : entity ∈ graph.entities)
    (h : graph.IsSpliced config entity.fullName) :
    entity.reference.IsSpliceable config (graph.splicing config) := by
  refine ⟨hregular.closed entity hentity h, fun hsolid => hsolid entity hentity h,
    hregular.holes entity hentity h, fun form placeholder hform hplaceholder => ⟨?_, ?_⟩⟩
  · exact hregular.braces entity hentity h form placeholder hform hplaceholder
  · exact IsSpliced.forward h hentity hform hplaceholder

/-- The references of a regular module are tame. -/
theorem IsRegular.tame (hregular : graph.IsRegular config) (hentity : entity ∈ graph.entities)
    (hwell : entity.reference.isWellFormed = true) :
    entity.reference.IsTame config (graph.splicing config) := by
  refine isTame_of_isWellFormed hwell (hregular.arguments entity hentity) fun _ _ hnode => ?_
  exact ⟨hregular.join.imp_left fun h => h entity hentity _ _ hnode,
    fun _ hname => IsSpliced.placeholder hentity hnode hname⟩

/-- A name whose value may be put into a pattern is used by some entity. -/
theorem IsSpliced.exists_use {name : String} (h : graph.IsSpliced config name) :
    ∃ entity ∈ graph.entities, name ∈ entity.reference.uses config := by
  cases h with
  | placeholder hentity hnode hname hexempt =>
      refine ⟨_, hentity, List.mem_flatMap.2 ⟨_, hnode, ?_⟩⟩
      exact mem_ownUses.2 ⟨_, Form.recognize?_template _ _, hname, hexempt⟩
  | forward _ hentity hform hplaceholder hexempt =>
      exact ⟨_, hentity, (mem_uses_of_target? hform (Form.placeholder?_eq_some hplaceholder)).2
        ⟨rfl, hexempt⟩⟩

/-- Whether the references of a module meet the conditions of regularity, no matter which of them
are put into patterns. -/
def isHarmless (graph : ModuleGraph) : Bool :=
  graph.entities.all fun entity =>
    entity.reference.written?.all Pattern.isClosed &&
    (match entity.reference with
      | .scalar s => !Pattern.hasHoles s.text
      | _ => true) &&
    (((Form.peek entity.reference).bind Form.placeholder?).all fun placeholder =>
      !(Pattern.inner placeholder).contains '}') &&
    entity.reference.nodes.all fun node =>
      match Form.peek node with
      | some (.substitution pattern arguments) =>
        Pattern.isSpaced (Pattern.pieces pattern) && !Fields.isReserved (arguments.getD [])
      | _ => true

theorem isRegular_of_isHarmless (config : Config) (h : graph.isHarmless = true) :
    graph.IsRegular config := by
  simp only [isHarmless, List.all_eq_true, Bool.and_eq_true, Option.all_eq_true] at h
  have htemplate : ∀ entity ∈ graph.entities, ∀ pattern arguments,
      Value.template pattern arguments ∈ entity.reference.nodes →
        Pattern.isSpaced (Pattern.pieces pattern) = true ∧
          Fields.isReserved (arguments.getD []) = false := by
    intro entity hentity pattern arguments hnode
    have hcheck := (h entity hentity).2 _ hnode
    rw [Form.peek_eq_some_iff.2 (Form.recognize?_template pattern arguments)] at hcheck
    simpa using hcheck
  refine ⟨?arguments, ?closed, ?holes, ?braces, Or.inl ?join⟩
  case arguments =>
    exact fun entity hentity pattern arguments hnode =>
      (htemplate entity hentity pattern (some arguments) hnode).2
  case closed => exact fun entity hentity _ text htext => (h entity hentity).1.1.1 text htext
  case holes =>
    intro entity hentity _ s hs
    simpa [hs] using (h entity hentity).1.1.2
  case braces =>
    intro entity hentity _ form placeholder hform hplaceholder
    have hcheck := (h entity hentity).1.2 placeholder (by
      rw [Form.peek_eq_some_iff.2 hform, Option.bind_some, hplaceholder])
    simpa using hcheck
  case join =>
    exact fun entity hentity pattern arguments hnode =>
      (htemplate entity hentity pattern arguments hnode).1

end ModuleGraph

namespace Resolver

open Value

variable {config : Config} {graph : ModuleGraph} {resolver next : Resolver} {n : Nat}

/-! ## The invariant -/

/-- What the steps of a resolver preserve while no dependency is added. -/
structure Advances (config : Config) (graph : ModuleGraph) (resolver : Resolver) : Prop where
  config_eq : resolver.config = config
  kept : ∃ rounds, Kept graph rounds resolver
  tame : ∀ entity ∈ resolver.free ++ resolver.bound,
    entity.reference.IsTame config (graph.splicing config)
  spliceable : ∀ entity ∈ resolver.free ++ resolver.bound,
    graph.IsSpliced config entity.fullName →
      entity.reference.IsSpliceable config (graph.splicing config)
  settled : ∀ entity ∈ resolver.free, ∀ name ∈ entity.reference.uses config,
    name ∈ Entity.names resolver.free
  /-- What a bound entity uses was declared, or it is free. -/
  uses : ∀ entity ∈ resolver.bound, ∀ name ∈ entity.reference.uses config,
    graph.DependsOn config entity.fullName name ∨ name ∈ Entity.names resolver.free

/-- What a run starts from: a valid module with well-formed and regular references, and a
configuration with plain markers. -/
structure Starts (config : Config) (graph : ModuleGraph) : Prop where
  valid : graph.Valid
  mark : config.preserveMarker ≠ ""
  markers : config.HasPlainMarkers
  wellFormed : ∀ entity ∈ graph.entities, entity.reference.isWellFormed = true
  regular : graph.IsRegular config

theorem advances_start {partition : Partition} (hstarts : Starts config graph)
    (h : graph.partition = .ok partition) (catalog : Catalog) :
    Advances config graph (start config catalog partition) := by
  refine ⟨rfl, ⟨[], kept_start h config catalog⟩, ?tame, ?spliceable, ?settled, ?uses⟩
  case tame =>
    intro entity hentity
    have hentity := mem_entities_of_start h hentity
    exact hstarts.regular.tame hentity (hstarts.wellFormed entity hentity)
  case spliceable =>
    intro entity hentity hspliced
    exact hstarts.regular.spliceable (mem_entities_of_start h hentity) hspliced
  case settled =>
    -- What is free by its shape uses nothing.
    intro entity hentity name hname
    rw [uses_of_classify (classify_of_start h hentity)] at hname
    simp at hname
  case uses =>
    intro entity hentity name hname
    have hentity := mem_entities_of_start h (List.mem_append_right _ hentity)
    exact Or.inl ⟨entity, hentity, rfl, hname⟩

/-- The surroundings of a resolver that advances are calm. -/
theorem Advances.calm (hstarts : Starts config graph) (h : Advances config graph resolver) :
    resolver.surroundings.Calm (graph.splicing config) := by
  obtain ⟨rounds, hkept⟩ := h.kept
  have hconfig : resolver.surroundings.config = config := h.config_eq
  refine ⟨hconfig ▸ hstarts.mark, hconfig ▸ hstarts.markers, ?names, ?tame, ?spliceable, ?uses⟩
  case names =>
    -- An addressable name has no dot.
    intro target htarget
    have hname : target.fullName ∈ graph.names :=
      hkept.perm.mem_iff.1 (Entity.fullName_mem_names (List.mem_append_left _ htarget))
    have haddressable := hstarts.valid.addressable _ hname
    simp only [ModuleGraph.isAddressable, Bool.and_eq_true, Bool.not_eq_true'] at haddressable
    simpa using haddressable.2
  case tame =>
    intro target htarget
    rw [hconfig]
    exact h.tame target (List.mem_append_left _ htarget)
  case spliceable =>
    intro target htarget hname
    rw [hconfig]
    exact h.spliceable target (List.mem_append_left _ htarget) hname
  case uses =>
    intro target htarget name hname
    exact h.settled target htarget name (hconfig ▸ hname)

theorem Advances.tame_pending (h : Advances config graph resolver) {pending : Pending}
    (hpending : pending ∈ resolver.waiting) :
    pending.entity.reference.IsTame resolver.surroundings.config (graph.splicing config) := by
  rw [show resolver.surroundings.config = config from h.config_eq]
  exact h.tame pending.entity (List.mem_append_right _ (List.mem_map_of_mem hpending))

/-- A pass over a bound entity reaches its end and adds no dependency. -/
theorem Advances.exists_apply (hstarts : Starts config graph) (h : Advances config graph resolver)
    {pending : Pending} (hpending : pending ∈ resolver.waiting) :
    ∃ value outcome, resolver.surroundings.apply pending.entity.fullName pending.entity.reference =
        .ok (value, outcome) ∧
      resolver.surroundings.Reduces (graph.splicing config) pending.entity.reference value {}
        outcome := by
  obtain ⟨value, outcome, hrewrites, hreduces⟩ := Surroundings.exists_rewrites_of_isTame
    (h.calm hstarts) pending.entity.fullName (h.tame_pending hpending) [pending.entity.fullName] {}
  exact ⟨value, outcome, Surroundings.apply_eq_ok_iff.2 hrewrites, hreduces⟩

theorem Advances.passes (hstarts : Starts config graph) (h : Advances config graph resolver) :
    ∀ pending ∈ resolver.waiting, resolver.surroundings.Passes pending := by
  intro pending hpending
  obtain ⟨value, outcome, happly, -⟩ := h.exists_apply hstarts hpending
  exact ⟨value, outcome, happly⟩

/-- What is known of the reference of a bound entity after a pass. -/
structure Leaves (config : Config) (graph : ModuleGraph) (resolver : Resolver) (name : String)
    (value : Value) (outcome : Outcome) : Prop where
  tame : value.IsTame config (graph.splicing config)
  spliceable : graph.IsSpliced config name → value.IsSpliceable config (graph.splicing config)
  uses : ∀ other ∈ value.uses config, other ∈ Entity.names resolver.free ∨
    (graph.DependsOn config name other ∧ other ∈ outcome.unresolved)
  noted : ∀ other ∈ outcome.unresolved,
    graph.DependsOn config name other ∧ other ∉ Entity.names resolver.free

theorem Advances.leaves (hstarts : Starts config graph) (h : Advances config graph resolver)
    {pending : Pending} (hpending : pending ∈ resolver.waiting) {value : Value} {outcome : Outcome}
    (happly : resolver.surroundings.apply pending.entity.fullName pending.entity.reference =
      .ok (value, outcome)) : Leaves config graph resolver pending.name value outcome := by
  obtain ⟨value', outcome', happly', hreduces⟩ := h.exists_apply hstarts hpending
  rw [happly'] at happly
  simp only [Except.ok.injEq, Prod.mk.injEq] at happly
  obtain ⟨rfl, rfl⟩ := happly
  have hconfig : resolver.surroundings.config = config := h.config_eq
  have hbound : pending.entity ∈ resolver.bound := List.mem_map_of_mem hpending
  obtain ⟨htame, hspliceable, huses, hnoted⟩ := hreduces
  rw [hconfig] at htame hspliceable huses hnoted
  refine ⟨htame, ?spliceable, ?uses, ?noted⟩
  case spliceable =>
    intro hname
    exact hspliceable (h.spliceable _ (List.mem_append_right _ hbound) hname)
  case uses =>
    intro name hname
    rcases huses name hname with hfree | ⟨hold, hunresolved⟩
    · exact Or.inl hfree
    · rcases h.uses pending.entity hbound name hold with hdepends | hfree
      · exact Or.inr ⟨hdepends, hunresolved⟩
      · exact Or.inl hfree
  case noted =>
    intro name hname
    rcases hnoted name hname with hbefore | ⟨hold, hnot⟩
    · simp [Outcome.unresolved] at hbefore
    · exact ⟨(h.uses pending.entity hbound name hold).resolve_right hnot, hnot⟩

/-- Among the bound entities there is one that the next sweep promotes. -/
theorem Advances.promotions_ne_nil (hstarts : Starts config graph)
    (hclosed : graph.IsClosed config) (hacyclic : graph.IsAcyclic config)
    (h : Advances config graph resolver) (hwaiting : resolver.waiting ≠ []) :
    resolver.promotions ≠ [] := by
  -- An entity that depends on no other bound entity.
  obtain ⟨name, hname, hminimal⟩ := exists_terminal hacyclic
    (resolver.waiting.map Pending.name) (by simpa using hwaiting)
  obtain ⟨pending, hpending, rfl⟩ := List.mem_map.1 hname
  obtain ⟨value, outcome, happly, -⟩ := h.exists_apply hstarts hpending
  -- A name that is noted would be declared and not free, hence bound.
  have hresolved : outcome.isResolved = true := by
    rw [Outcome.isResolved_iff, List.eq_nil_iff_forall_not_mem]
    intro other hother
    obtain ⟨hdepends, hnot⟩ := (h.leaves hstarts hpending happly).noted other hother
    obtain ⟨rounds, hkept⟩ := h.kept
    have hdeclared := hkept.perm.mem_iff.2 (hclosed _ _ hdepends)
    rw [Entity.names_append, List.mem_append, names_bound] at hdeclared
    exact hminimal other hdepends (hdeclared.resolve_left hnot)
  have hpromotes : resolver.surroundings.promotes? pending =
      some (pending.entity.withReference value, outcome.invalid) := by
    simp [Surroundings.promotes?, happly, hresolved]
  exact List.ne_nil_of_mem (List.mem_filterMap.2 ⟨pending, hpending, hpromotes⟩)

theorem Advances.step (hstarts : Starts config graph) (h : Advances config graph resolver)
    (hstep : resolver.step = (next, .ok n)) : Advances config graph next := by
  obtain ⟨rounds, hkept⟩ := h.kept
  have hkept' := hkept.step hstep
  obtain ⟨-, -, rfl⟩ := step_eq_ok hstep
  -- Every entity of the next state was free, or a pass has gone over it.
  have hentities : ∀ entity ∈ (resolver.free ++ resolver.promotions.map (·.1)) ++
      resolver.remaining.map (·.entity), entity ∈ resolver.free ∨
        ∃ outcome, Leaves config graph resolver entity.fullName entity.reference outcome := by
    intro entity hentity
    simp only [List.append_assoc, List.mem_append, List.mem_map] at hentity
    rcases hentity with hold | ⟨promoted, hmem, rfl⟩ | ⟨kept, hmem, rfl⟩
    · exact Or.inl hold
    · obtain ⟨pending, hpending, hpromotes⟩ := List.mem_filterMap.1 hmem
      obtain ⟨value, outcome, happly, -, rfl⟩ := Surroundings.promotes?_eq_some hpromotes
      exact Or.inr ⟨outcome, h.leaves hstarts hpending happly⟩
    · obtain ⟨pending, hpending, hkeeps⟩ := List.mem_filterMap.1 hmem
      obtain ⟨value, outcome, happly, -, rfl⟩ := Surroundings.keeps?_eq_some hkeeps
      exact Or.inr ⟨outcome, h.leaves hstarts hpending happly⟩
  refine ⟨h.config_eq, hkept', ?tame, ?spliceable, ?settled, ?uses⟩
  case tame =>
    intro entity hentity
    rcases hentities entity hentity with hold | ⟨outcome, hleaves⟩
    · exact h.tame entity (List.mem_append_left _ hold)
    · exact hleaves.tame
  case spliceable =>
    intro entity hentity hspliced
    rcases hentities entity hentity with hold | ⟨outcome, hleaves⟩
    · exact h.spliceable entity (List.mem_append_left _ hold) hspliced
    · exact hleaves.spliceable hspliced
  case settled =>
    intro entity hentity name hname
    rw [Entity.names_append]
    refine List.mem_append_left _ ?_
    rcases List.mem_append.1 hentity with hentity | hentity
    · exact h.settled entity hentity name hname
    · -- Nothing was noted in the reference of an entity that is promoted.
      obtain ⟨promoted, hmem, rfl⟩ := List.mem_map.1 hentity
      obtain ⟨pending, hpending, hpromotes⟩ := List.mem_filterMap.1 hmem
      obtain ⟨value, outcome, happly, hresolved, rfl⟩ := Surroundings.promotes?_eq_some hpromotes
      refine ((h.leaves hstarts hpending happly).uses name hname).resolve_right ?_
      rintro ⟨-, hnoted⟩
      rw [Outcome.isResolved_iff.1 hresolved] at hnoted
      simp at hnoted
  case uses =>
    intro entity hentity name hname
    obtain ⟨kept, hmem, rfl⟩ := List.mem_map.1 hentity
    obtain ⟨pending, hpending, hkeeps⟩ := List.mem_filterMap.1 hmem
    obtain ⟨value, outcome, happly, -, rfl⟩ := Surroundings.keeps?_eq_some hkeeps
    rcases (h.leaves hstarts hpending happly).uses name hname with hnow | ⟨hdepends, -⟩
    · exact Or.inr (by simpa using Or.inl hnow)
    · exact Or.inl hdepends

theorem Advances.exists_step (hstarts : Starts config graph) (hclosed : graph.IsClosed config)
    (hacyclic : graph.IsAcyclic config) (h : Advances config graph resolver)
    (hwaiting : resolver.waiting ≠ []) :
    ∃ next n, resolver.step = (next, .ok n) ∧ n ≠ 0 ∧ Advances config graph next := by
  have hstep := step_of_passes (h.passes hstarts)
  have hpromotions := h.promotions_ne_nil hstarts hclosed hacyclic hwaiting
  exact ⟨_, _, hstep, Nat.ne_of_gt (List.length_pos_iff.2 hpromotions), h.step hstarts hstep⟩

/-- A module whose declared dependencies are closed and acyclic can be partitioned, and a run leaves
none of its entities bound after at most as many iterations as there are entities. -/
theorem run_completes (config : Config) (catalog : Catalog) (graph : ModuleGraph)
    (hvalid : graph.Valid) (hmark : config.preserveMarker ≠ "")
    (hwell : ∀ entity ∈ graph.entities, entity.reference.isWellFormed = true)
    (hclosed : graph.IsClosed config) (hacyclic : graph.IsAcyclic config)
    (hmarkers : config.HasPlainMarkers) (hregular : graph.IsRegular config) :
    ∃ partition, graph.partition = .ok partition ∧
      (start config catalog partition).run.2 = none ∧
      (start config catalog partition).run.1.waiting = [] ∧
      (start config catalog partition).run.1.stats.iterations ≤ graph.entities.length := by
  have hstarts : Starts config graph := ⟨hvalid, hmark, hmarkers, hwell, hregular⟩
  have hnull : ∀ entity ∈ graph.entities, entity.reference ≠ .null := fun entity hentity =>
    (isWellFormed_iff.1 (hwell entity hentity) _ (self_mem_nodes _)).1
  obtain ⟨parts, hsplit⟩ := Entity.exists_split hnull
  obtain ⟨partition, hpartition⟩ : ∃ partition, graph.partition = .ok partition :=
    ⟨_, by rw [ModuleGraph.partition, hsplit]; rfl⟩
  obtain ⟨hnone, hwaiting, hiterations⟩ := run_complete (P := Advances config graph)
    (fun h hne => h.exists_step hstarts hclosed hacyclic hne)
    (advances_start hstarts hpartition catalog)
  refine ⟨partition, hpartition, hnone, hwaiting, ?_⟩
  have hlength : partition.bound.length ≤ graph.entities.length := by
    rw [(ModuleGraph.partition_eq_ok hpartition).2.2.2]
    exact List.length_filter_le _ _
  calc (start config catalog partition).run.1.stats.iterations
      ≤ 0 + (partition.bound.map fun entity => (⟨entity, none⟩ : Pending)).length := hiterations
    _ = partition.bound.length := by rw [Nat.zero_add, List.length_map]
    _ ≤ graph.entities.length := hlength

/-- A module in which a text and a list come into one pattern, the text through a reference. -/
def layered : ModuleGraph where
  name := "Main"
  entities := [
    .value "A" (.string "a"), .value "L" (.list [.string "x"]), .value "B" (.ref "A"),
    .value "Y" (.sub "${B}: ${L}" [])]

theorem run_completes_layered :
    layered.Valid ∧ ({} : Config).preserveMarker ≠ "" ∧
      (∀ entity ∈ layered.entities, entity.reference.isWellFormed = true) ∧
      layered.IsClosed {} ∧ layered.IsAcyclic {} ∧ ({} : Config).HasPlainMarkers ∧
      layered.IsRegular {} ∧
      ∃ partition, layered.partition = .ok partition ∧
        (start {} .permissive partition).run.2 = none ∧
        (start {} .permissive partition).run.1.waiting = [] ∧
        (start {} .permissive partition).run.1.stats.iterations ≤ layered.entities.length := by
  have hvalid : layered.Valid := ⟨by decide, by decide +kernel⟩
  have hwell : ∀ entity ∈ layered.entities, entity.reference.isWellFormed = true := by
    decide +kernel
  obtain ⟨hclosed, hacyclic⟩ :=
    @ModuleGraph.closed_and_acyclic_of_isLayered {} layered hvalid.nodup (by decide +kernel)
  have hmarkers : ({} : Config).HasPlainMarkers := by
    constructor <;> decide
  have hregular : layered.IsRegular {} :=
    ModuleGraph.isRegular_of_isHarmless {} (by decide +kernel)
  exact ⟨hvalid, by decide, hwell, hclosed, hacyclic, hmarkers, hregular,
    run_completes {} .permissive layered hvalid (by decide) hwell hclosed hacyclic hmarkers
      hregular⟩

/-! ## The conditions are needed -/

/-- Whether a run leaves nothing bound. -/
def completes (config : Config) (graph : ModuleGraph) : Bool :=
  graph.partition.toOption.any fun partition =>
    (start config .permissive partition).run.2.isNone &&
      (start config .permissive partition).run.1.waiting.isEmpty

/-- A module with a pattern that ends in a placeholder for a bound entity. -/
def behind (pattern : String) (entity : Entity) : ModuleGraph where
  name := "Main"
  entities := [
    .value "A" (.string "a"), .value "B" (.ref "A"), .value "C" (.ref "B"), entity,
    .value "Y" (.sub (pattern ++ "${C}") [])]

/-- A resource without a declaration. -/
def resource : Entity where
  fullName := "R"
  kind := .resource
  reference := .string "r"

/-- A module with an argument map that is itself a reference. -/
def nested : ModuleGraph where
  name := "Main"
  entities := [.value "A" (.string "a"), .value "Y" (.sub "y" [("Ref", .string "A")])]

/-- A run leaves entities bound, although the module is valid, closed and acyclic, its references
are well-formed and the preserve marker is not empty. -/
structure StopsShort (config : Config) (graph : ModuleGraph) : Prop where
  valid : graph.Valid
  mark : config.preserveMarker ≠ ""
  wellFormed : ∀ entity ∈ graph.entities, entity.reference.isWellFormed = true
  closed : graph.IsClosed config
  acyclic : graph.IsAcyclic config
  bound : completes config graph = false

theorem stopsShort_of_isLayered (hnodup : graph.names.Nodup)
    (haddressable : ∀ name ∈ graph.names, ModuleGraph.isAddressable name = true)
    (hmark : config.preserveMarker ≠ "")
    (hwell : ∀ entity ∈ graph.entities, entity.reference.isWellFormed = true)
    (hlayered : ModuleGraph.isLayered config [] graph.entities = true)
    (hbound : completes config graph = false) : StopsShort config graph := by
  obtain ⟨hclosed, hacyclic⟩ := ModuleGraph.closed_and_acyclic_of_isLayered hnodup hlayered
  exact ⟨⟨hnodup, haddressable⟩, hmark, hwell, hclosed, hacyclic, hbound⟩

/-- For each condition of `run_completes` a module that is not resolved without it. -/
theorem stops_short :
    StopsShort {} nested ∧
      -- A text that ends in an opening, and one with a hole.
      StopsShort {} (behind "${T}" (.value "T" (.string "t$\x7b"))) ∧
      StopsShort {} (behind "${T}" (.value "T" (.string "t${Z}"))) ∧
      -- A name with a brace, of which a placeholder keeps the beginning.
      StopsShort {} (behind "${T}" (.value "T" (.ref "AWS::T\x7d$\x7bZ"))) ∧
      -- Nothing comes between a dollar sign and a brace.
      StopsShort {} (behind "$${T}{Z}" (.value "T" (.string ""))) ∧
      -- Markers with a dot or a brace, of which a placeholder keeps the beginning as well.
      StopsShort { preserveMarker := "p." } (behind "${R.Arn}" resource) ∧
      StopsShort { preserveMarker := "p\x7d" } (behind "${R.Arn}" resource) ∧
      StopsShort { intrinsicMarkers := ["q."] } (behind "${T}" (.value "T" (.ref "q.t"))) ∧
      StopsShort { syntheticMarker := "s." } (behind "${T}" (.value "T" (.list [.string "t"]))) ∧
      StopsShort { syntheticMarker := "s\x7d" }
        (behind "${T}" (.value "T" (.list [.string "t"]))) := by
  refine ⟨?_, ?_, ?_, ?_, ?_, ?_, ?_, ?_, ?_, ?_⟩ <;>
    exact stopsShort_of_isLayered (by decide +kernel) (by decide +kernel) (by decide)
      (by decide +kernel) (by decide +kernel) (by decide +kernel)

end Resolver

end StackLinker
