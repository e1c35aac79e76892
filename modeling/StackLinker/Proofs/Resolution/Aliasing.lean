import StackLinker.Proofs.Resolution.Endings
import StackLinker.Proofs.Resolution.Solutions

/-!
# Aliases

An entity whose reference is settled may hand it to a new entity and refer to that one instead
(`ModuleGraph.withAlias`).  Then it becomes free one iteration later, and what asks for it is filled
in another order.  Where it can be read off from what is declared how resolution ends, this makes no
difference: with the alias it ends as without it, and if the module is resolved, then to the same
entities up to the names of added arguments (`resolves_alike_withAlias`).

## Strategy

The conditions for success carry over in both directions, as the new entity asks for nothing and
only one entity asks for it (`isLinkable_withAlias_iff`), and so do those for structural errors, as
the same entities become free (`isBroken_withAlias_iff`).  For the results, every entity has a twin
in the other module, and passes make alike values of twins when what they ask for has alike values
(`IsSolution.forall₂_alike`).
-/

namespace StackLinker

/-! ## References -/

namespace Value

variable {config : Config} {name other : String} {placeholder : Placeholder}

theorem mem_uses_ref (hexempt : config.isExempt name = false) :
    other ∈ (ref name).uses config ↔ other = name := by
  rw [mem_uses_of_target? (Form.recognize?_ref name) rfl]
  simp [hexempt]

theorem mem_requested_ref : placeholder ∈ (ref name).requested ↔ placeholder = ⟨name, none⟩ := by
  rw [mem_requested_iff]
  simp [requests_target_iff (Form.recognize?_ref name) rfl]

/-- There is no pattern in a reference. -/
theorem template_notMem_nodes_ref {pattern : String} {arguments : Option (Fields Value)} :
    Value.template pattern arguments ∉ (ref name).nodes := by
  intro hnode
  have hform := Form.recognize?_template pattern arguments
  rcases List.mem_cons.1 (show _ ∈ [Value.string name, .ref name] from hnode) with h | h
  · rw [h] at hform
    simp [Value.string, Form.recognize?] at hform
  · rw [List.mem_singleton.1 h, Form.recognize?_ref] at hform
    simp at hform

theorem isOrdinary_ref (name : String) : (ref name).IsOrdinary := by
  refine ⟨isWellFormed_iff.2 fun node hnode => ?_, fun _ _ hnode =>
    absurd hnode template_notMem_nodes_ref⟩
  rcases List.mem_cons.1 (show _ ∈ [Value.string name, .ref name] from hnode) with rfl | h
  · exact ⟨nofun, none, rfl⟩
  · rw [List.mem_singleton.1 h]
    exact ⟨nofun, _, Form.recognize?_ref name⟩

end Value

namespace ModuleGraph

open Value

/-- The module with a new entity that holds the reference of a declared one, which refers to the new
entity instead. -/
def withAlias (graph : ModuleGraph) (target : Entity) (name : String) : ModuleGraph :=
  { graph with
    entities := (graph.entities.map fun entity =>
      if entity.fullName = target.fullName then entity.withReference (.ref name) else entity) ++
        [.value name target.reference] }

/-- A name for a new entity: it can be asked for, and nothing in the module has it or asks for
it. -/
structure IsFresh (config : Config) (graph : ModuleGraph) (name : String) : Prop where
  addressable : isAddressable name = true
  brace : '}' ∉ name.toList
  exempt : config.isExempt name = false
  number : ¬ config.IsSynthetic name
  names : name ∉ graph.names
  unused : ∀ entity ∈ graph.entities, ∀ v ∈ entity.values, name ∉ v.uses config

variable {config : Config} {catalog : Catalog} {graph : ModuleGraph} {target entity : Entity}
  {name a b : String} {placeholder : Placeholder}

/-! ## The module with the alias -/

theorem names_withAlias (graph : ModuleGraph) (target : Entity) (name : String) :
    (graph.withAlias target name).names = graph.names ++ [name] := by
  have hkeeps : (Entity.fullName ∘ fun entity : Entity =>
      if entity.fullName = target.fullName then entity.withReference (.ref name) else entity) =
        Entity.fullName := by
    funext entity
    simp only [Function.comp_apply]
    split <;> rfl
  simp [withAlias, ModuleGraph.names, hkeeps, Entity.value]

/-- The entities of the module with the alias: those that the alias does not concern, the entity
that refers to it, and the alias. -/
theorem mem_withAlias_iff (hnodup : graph.names.Nodup) (htarget : target ∈ graph.entities) :
    entity ∈ (graph.withAlias target name).entities ↔
      (entity ∈ graph.entities ∧ entity.fullName ≠ target.fullName) ∨
        entity = target.withReference (.ref name) ∨ entity = .value name target.reference := by
  simp only [withAlias, List.mem_append, List.mem_map, List.mem_singleton]
  constructor
  · rintro (⟨origin, horigin, rfl⟩ | rfl)
    · split
      · rename_i hname
        obtain rfl := List.inj_on_of_nodup_map hnodup horigin htarget hname
        exact Or.inr (Or.inl rfl)
      · rename_i hname
        exact Or.inl ⟨horigin, hname⟩
    · exact Or.inr (Or.inr rfl)
  · rintro (⟨hentity, hname⟩ | rfl | rfl)
    · exact Or.inl ⟨entity, hentity, if_neg hname⟩
    · exact Or.inl ⟨target, htarget, if_pos rfl⟩
    · exact Or.inr rfl

/-- A name that is asked for in a module is not fresh. -/
theorem IsFresh.ne_of_mem_uses (h : graph.IsFresh config name) (hentity : entity ∈ graph.entities)
    {v : Value} (hv : v ∈ entity.values) (huses : b ∈ v.uses config) : b ≠ name := fun hb =>
  h.unused entity hentity v hv (hb ▸ huses)

/-- The values of the module with the alias are the declared ones and a reference to the alias. -/
theorem forall_values_withAlias_iff (hnodup : graph.names.Nodup) (htarget : target ∈ graph.entities)
    {P : Value → Prop} :
    (∀ entity ∈ (graph.withAlias target name).entities, ∀ v ∈ entity.values, P v) ↔
      P (.ref name) ∧ ∀ entity ∈ graph.entities, ∀ v ∈ entity.values, P v := by
  simp only [mem_withAlias_iff hnodup htarget, Entity.forall_mem_values]
  constructor
  · intro h
    obtain ⟨href, hdefinition⟩ := h _ (Or.inr (Or.inl rfl))
    obtain ⟨hreference, -⟩ := h _ (Or.inr (Or.inr rfl))
    refine ⟨href, fun entity hentity => ?_⟩
    by_cases hname : entity.fullName = target.fullName
    · obtain rfl := List.inj_on_of_nodup_map hnodup hentity htarget hname
      exact ⟨hreference, hdefinition⟩
    · exact h entity (Or.inl ⟨hentity, hname⟩)
  · rintro ⟨href, h⟩ entity (⟨hentity, -⟩ | rfl | rfl)
    · exact h entity hentity
    · exact ⟨href, (h target htarget).2⟩
    · exact ⟨(h target htarget).1, nofun⟩

/-- Nothing but the alias itself is put into patterns in addition. -/
theorem isSpliced_of_withAlias (hgraph : graph.Valid) (htarget : target ∈ graph.entities)
    (hfresh : graph.IsFresh config name) (h : (graph.withAlias target name).IsSpliced config b) :
    graph.IsSpliced config b ∨ b = name ∧ graph.IsSpliced config target.fullName := by
  have hname : ∀ origin ∈ graph.entities, origin.fullName ≠ name := fun origin horigin hsame =>
    hfresh.names (hsame ▸ Entity.fullName_mem_names horigin)
  induction h with
  | placeholder hentity hnode hname hexempt =>
      rcases (mem_withAlias_iff hgraph.nodup htarget).1 hentity with ⟨hentity, -⟩ | rfl | rfl
      · exact Or.inl (.placeholder hentity hnode hname hexempt)
      · exact absurd hnode template_notMem_nodes_ref
      · exact Or.inl (.placeholder htarget hnode hname hexempt)
  | @forward entity form placeholder h hentity hform hplaceholder hexempt ih =>
      rcases (mem_withAlias_iff hgraph.nodup htarget).1 hentity with ⟨hentity, -⟩ | rfl | rfl
      · have hspliced := ih.resolve_right fun ⟨hsame, _⟩ => hname entity hentity hsame
        exact Or.inl (.forward hspliced hentity hform hplaceholder hexempt)
      · have hspliced := ih.resolve_right fun ⟨hsame, _⟩ => hname target htarget hsame
        rw [Entity.reference_withReference, Form.recognize?_ref] at hform
        obtain rfl := Option.some.inj (Except.ok.inj hform)
        obtain rfl := Option.some.inj hplaceholder
        exact Or.inr ⟨rfl, hspliced⟩
      · rcases ih with hspliced | ⟨-, hspliced⟩
        · obtain ⟨origin, horigin, huses⟩ := hspliced.exists_use
          exact absurd huses (hfresh.unused origin horigin _ List.mem_cons_self)
        · exact Or.inl (.forward hspliced htarget hform hplaceholder hexempt)

/-- What may be put into patterns is a reference to the alias, or was declared before. -/
theorem reference_of_isSpliced_withAlias (hgraph : graph.Valid) (htarget : target ∈ graph.entities)
    (hfresh : graph.IsFresh config name) (hentity : entity ∈ (graph.withAlias target name).entities)
    (h : (graph.withAlias target name).IsSpliced config entity.fullName) :
    entity.reference = .ref name ∨ ∃ origin ∈ graph.entities,
      graph.IsSpliced config origin.fullName ∧ entity.reference = origin.reference := by
  rcases (mem_withAlias_iff hgraph.nodup htarget).1 hentity with ⟨horigin, -⟩ | rfl | rfl
  · rcases isSpliced_of_withAlias hgraph htarget hfresh h with h | ⟨hname, -⟩
    · exact Or.inr ⟨entity, horigin, h, rfl⟩
    · exact absurd (hname ▸ Entity.fullName_mem_names horigin) hfresh.names
  · exact Or.inl rfl
  · rcases isSpliced_of_withAlias hgraph htarget hfresh h with h | ⟨-, h⟩
    · obtain ⟨origin, horigin, huses⟩ := h.exists_use
      exact absurd huses (hfresh.unused origin horigin _ List.mem_cons_self)
    · exact Or.inr ⟨target, htarget, h, rfl⟩

theorem Valid.withAlias (hgraph : graph.Valid) (hfresh : graph.IsFresh config name) :
    (graph.withAlias target name).Valid where
  nodup := by
    rw [names_withAlias]
    exact List.nodup_append.2 ⟨hgraph.nodup, List.nodup_singleton _, fun a ha b hb hab =>
      hfresh.names (List.mem_singleton.1 hb ▸ hab ▸ ha)⟩
  addressable a ha := by
    rw [names_withAlias] at ha
    rcases List.mem_append.1 ha with ha | ha
    · exact hgraph.addressable a ha
    · exact List.mem_singleton.1 ha ▸ hfresh.addressable

theorem IsRegular.withAlias (hgraph : graph.Valid) (hregular : graph.IsRegular config)
    (htarget : target ∈ graph.entities) (hfresh : graph.IsFresh config name) :
    (graph.withAlias target name).IsRegular config := by
  have hspliced {entity : Entity} := @reference_of_isSpliced_withAlias config graph target entity
    name hgraph htarget hfresh
  have hwritten : (Value.ref name).written? = none :=
    written?_of_placeholder (Form.recognize?_ref name) rfl
  have hnodes : ∀ entity ∈ (graph.withAlias target name).entities, ∀ pattern arguments,
      Value.template pattern arguments ∈ entity.reference.nodes →
        ∃ origin ∈ graph.entities, Value.template pattern arguments ∈ origin.reference.nodes := by
    intro entity hentity pattern arguments hnode
    rcases (mem_withAlias_iff hgraph.nodup htarget).1 hentity with ⟨horigin, -⟩ | rfl | rfl
    · exact ⟨entity, horigin, hnode⟩
    · exact absurd hnode template_notMem_nodes_ref
    · exact ⟨target, htarget, hnode⟩
  refine ⟨?arguments, ?closed, ?holes, ?braces, ?join⟩
  case arguments =>
    intro entity hentity pattern arguments hnode
    obtain ⟨origin, horigin, hnode⟩ := hnodes entity hentity _ _ hnode
    exact hregular.arguments origin horigin pattern arguments hnode
  case closed =>
    intro entity hentity h text htext
    rcases hspliced hentity h with heq | ⟨origin, horigin, h, heq⟩ <;> rw [heq] at htext
    · simp [hwritten] at htext
    · exact hregular.closed origin horigin h text htext
  case holes =>
    intro entity hentity h s hs
    rcases hspliced hentity h with heq | ⟨origin, horigin, h, heq⟩ <;> rw [heq] at hs
    · exact absurd hs nofun
    · exact hregular.holes origin horigin h s hs
  case braces =>
    intro entity hentity h form placeholder hform hplaceholder
    rcases hspliced hentity h with heq | ⟨origin, horigin, h, heq⟩ <;> rw [heq] at hform
    · rw [Form.recognize?_ref] at hform
      obtain rfl := Option.some.inj (Except.ok.inj hform)
      obtain rfl := Option.some.inj hplaceholder
      exact hfresh.brace
    · exact hregular.braces origin horigin h form placeholder hform hplaceholder
  case join =>
    refine hregular.join.imp (fun hspaced entity hentity pattern arguments hnode => ?_)
      fun hsolid entity hentity h text htext => ?_
    · obtain ⟨origin, horigin, hnode⟩ := hnodes entity hentity _ _ hnode
      exact hspaced origin horigin pattern arguments hnode
    · rcases hspliced hentity h with heq | ⟨origin, horigin, h, heq⟩ <;> rw [heq] at htext
      · simp [hwritten] at htext
      · exact hsolid origin horigin h text htext

/-- With an alias, how resolution ends can still be read off from what is declared. -/
theorem IsRigid.withAlias (hgraph : graph.IsRigid config) (htarget : target ∈ graph.entities)
    (hfresh : graph.IsFresh config name) : (graph.withAlias target name).IsRigid config := by
  have hvalues {P : Value → Prop} :=
    @forall_values_withAlias_iff graph target name hgraph.valid.nodup htarget P
  refine ⟨hgraph.valid.withAlias hfresh, hgraph.mark, hgraph.markers,
    hgraph.regular.withAlias hgraph.valid htarget hfresh, ?rigid, ?arguments, ?numbers⟩
  case rigid =>
    exact hvalues.2 ⟨isRigid_of_isWellFormed (isOrdinary_ref name).wellFormed,
      hgraph.rigid⟩
  case arguments => exact hvalues.2 ⟨(isOrdinary_ref name).arguments, hgraph.arguments⟩
  case numbers =>
    exact hvalues.2 ⟨fun b hb => (mem_uses_ref hfresh.exempt).1 hb ▸ hfresh.number, hgraph.numbers⟩

/-! ## Success -/

/-- The entity that refers to the alias depends on it, and nothing else changes. -/
theorem dependsOn_withAlias_iff (hnodup : graph.names.Nodup) (htarget : target ∈ graph.entities)
    (hfree : target.isFree = true) (hexempt : config.isExempt name = false) :
    (graph.withAlias target name).DependsOn config a b ↔
      graph.DependsOn config a b ∨ a = target.fullName ∧ b = name := by
  have hquiet : target.reference.uses config = [] := uses_of_classify (of_decide_eq_true hfree)
  constructor
  · rintro ⟨entity, hentity, rfl, huses⟩
    rcases (mem_withAlias_iff hnodup htarget).1 hentity with ⟨hentity, -⟩ | rfl | rfl
    · exact Or.inl ⟨entity, hentity, rfl, huses⟩
    · exact Or.inr ⟨rfl, (mem_uses_ref hexempt).1 huses⟩
    · simp [Entity.value, hquiet] at huses
  · rintro (⟨entity, hentity, rfl, huses⟩ | ⟨rfl, rfl⟩)
    · refine ⟨entity, (mem_withAlias_iff hnodup htarget).2 (Or.inl ⟨hentity, fun hname => ?_⟩), rfl,
        huses⟩
      obtain rfl := List.inj_on_of_nodup_map hnodup hentity htarget hname
      simp [hquiet] at huses
    · exact ⟨_, (mem_withAlias_iff hnodup htarget).2 (Or.inr (Or.inl rfl)), rfl,
        (mem_uses_ref hexempt).2 rfl⟩

theorem isAcyclic_withAlias_iff (hnodup : graph.names.Nodup) (htarget : target ∈ graph.entities)
    (hfree : target.isFree = true) (hfresh : graph.IsFresh config name) :
    (graph.withAlias target name).IsAcyclic config ↔ graph.IsAcyclic config := by
  have hdepends {a b : String} := @dependsOn_withAlias_iff config graph target name a b hnodup
    htarget hfree hfresh.exempt
  have hmono : graph.DependsOn config ≤ (graph.withAlias target name).DependsOn config :=
    fun _ _ harrow => hdepends.2 (Or.inl harrow)
  refine ⟨fun h a hcycle => h a (Relation.TransGen.mono hmono a a hcycle), fun h a hcycle => ?_⟩
  -- The alias depends on nothing, so that no cycle goes through it.
  have hends {b : String} : ¬ (graph.withAlias target name).DependsOn config name b := by
    rw [hdepends]
    rintro (⟨entity, hentity, hname, -⟩ | ⟨hname, -⟩)
    · exact hfresh.names (hname ▸ Entity.fullName_mem_names hentity)
    · exact hfresh.names (hname ▸ Entity.fullName_mem_names htarget)
  have hpath {b : String}
      (h : Relation.TransGen ((graph.withAlias target name).DependsOn config) a b) :
      Relation.TransGen (graph.DependsOn config) a b ∨ b = name := by
    induction h with
    | single harrow => exact (hdepends.1 harrow).imp .single And.right
    | tail _ harrow ih =>
        rcases ih with hpath | rfl
        · exact (hdepends.1 harrow).imp hpath.tail And.right
        · exact absurd harrow hends
  rcases hpath hcycle with hcycle | rfl
  · exact h a hcycle
  · obtain ⟨b, harrow, -⟩ := Relation.TransGen.head'_iff.1 hcycle
    exact hends harrow

/-- Apart from the alias, the same is there to be asked for. -/
theorem meets_withAlias_iff (hnodup : graph.names.Nodup) (htarget : target ∈ graph.entities)
    (hname : placeholder.name ≠ name) :
    (graph.withAlias target name).Meets catalog placeholder ↔ graph.Meets catalog placeholder := by
  constructor
  · rintro ⟨entity, hentity, hsame, hoffers⟩
    rcases (mem_withAlias_iff hnodup htarget).1 hentity with ⟨hentity, -⟩ | rfl | rfl
    · exact ⟨entity, hentity, hsame, hoffers⟩
    · exact ⟨target, htarget, hsame, hoffers⟩
    · exact absurd hsame.symm hname
  · rintro ⟨entity, hentity, hsame, hoffers⟩
    by_cases hother : entity.fullName = target.fullName
    · obtain rfl := List.inj_on_of_nodup_map hnodup hentity htarget hother
      exact ⟨_, (mem_withAlias_iff hnodup htarget).2 (Or.inr (Or.inl rfl)), hsame, hoffers⟩
    · exact ⟨entity, (mem_withAlias_iff hnodup htarget).2 (Or.inl ⟨hentity, hother⟩), hsame,
        hoffers⟩

theorem isLinkable_withAlias_iff (hnodup : graph.names.Nodup) (htarget : target ∈ graph.entities)
    (hfree : target.isFree = true) (hfresh : graph.IsFresh config name) :
    (graph.withAlias target name).IsLinkable config catalog ↔ graph.IsLinkable config catalog := by
  have hne {entity : Entity} {v : Value} {placeholder : Placeholder}
      (hentity : entity ∈ graph.entities) (hv : v ∈ entity.values)
      (hrequested : placeholder ∈ v.requested)
      (hexempt : config.isExempt placeholder.name = false) : placeholder.name ≠ name :=
    hfresh.ne_of_mem_uses hentity hv
      (mem_uses_iff_requested.2 ⟨placeholder, hrequested, rfl, hexempt⟩)
  constructor
  · rintro ⟨hacyclic, hmeets⟩
    obtain ⟨-, hmeets⟩ := (forall_values_withAlias_iff hnodup htarget).1 hmeets
    refine ⟨(isAcyclic_withAlias_iff hnodup htarget hfree hfresh).1 hacyclic, ?_⟩
    intro entity hentity v hv placeholder hrequested hexempt
    exact (meets_withAlias_iff hnodup htarget (hne hentity hv hrequested hexempt)).1
      (hmeets entity hentity v hv placeholder hrequested hexempt)
  · rintro ⟨hacyclic, hmeets⟩
    refine ⟨(isAcyclic_withAlias_iff hnodup htarget hfree hfresh).2 hacyclic,
      (forall_values_withAlias_iff hnodup htarget).2 ⟨?_, ?_⟩⟩
    · intro placeholder hrequested _
      obtain rfl := mem_requested_ref.1 hrequested
      exact ⟨_, (mem_withAlias_iff hnodup htarget).2 (Or.inr (Or.inr rfl)), rfl, nofun⟩
    · intro entity hentity v hv placeholder hrequested hexempt
      exact (meets_withAlias_iff hnodup htarget (hne hentity hv hrequested hexempt)).2
        (hmeets entity hentity v hv placeholder hrequested hexempt)

/-! ## Structural errors -/

/-- With an alias, the same entities have a rank. -/
theorem exists_hasRank_withAlias_iff (hnodup : graph.names.Nodup)
    (htarget : target ∈ graph.entities) (hfree : target.isFree = true)
    (hfresh : graph.IsFresh config name) (hname : a ≠ name) :
    (∃ rank, (graph.withAlias target name).HasRank config a rank) ↔
      ∃ rank, graph.HasRank config a rank := by
  have hmem {entity : Entity} := @mem_withAlias_iff graph target entity name hnodup htarget
  have hdeclared : ∃ rank, graph.HasRank config target.fullName rank := ⟨0, .free htarget hfree⟩
  constructor
  · rintro ⟨rank, h⟩
    induction h with
    | free hentity hshape =>
        rcases hmem.1 hentity with ⟨hentity, -⟩ | rfl | rfl
        · exact ⟨0, .free hentity hshape⟩
        · exact hdeclared
        · exact absurd rfl hname
    | bound hentity _ _ ih =>
        rcases hmem.1 hentity with ⟨hentity, -⟩ | rfl | rfl
        · exact exists_hasRank hentity fun b hb =>
            ih b hb (hfresh.ne_of_mem_uses hentity List.mem_cons_self hb)
        · exact hdeclared
        · exact absurd rfl hname
  · rintro ⟨rank, h⟩
    have hclassify : target.reference.classify name = .ok .free :=
      classify_eq_free_iff.2 (classify_eq_free_iff.1 (of_decide_eq_true hfree))
    have halias : (graph.withAlias target name).HasRank config name 0 :=
      .free (hmem.2 (Or.inr (Or.inr rfl))) (decide_eq_true hclassify)
    -- The entity that refers to the alias follows it.
    have hreferring : target.withReference (.ref name) ∈ (graph.withAlias target name).entities :=
      hmem.2 (Or.inr (Or.inl rfl))
    have huses : ∀ b ∈ (Value.ref name).uses config,
        ∃ rank, (graph.withAlias target name).HasRank config b rank := by
      intro b hb
      rw [(mem_uses_ref hfresh.exempt).1 hb]
      exact ⟨0, halias⟩
    have hbehind : ∃ rank, (graph.withAlias target name).HasRank config
        (target.withReference (.ref name)).fullName rank := exists_hasRank hreferring huses
    rw [Entity.fullName_withReference] at hbehind
    clear hname
    induction h with
    | @free entity hentity hshape =>
        by_cases hsame : entity.fullName = target.fullName
        · exact hsame ▸ hbehind
        · exact ⟨0, .free (hmem.2 (Or.inl ⟨hentity, hsame⟩)) hshape⟩
    | @bound entity _ hentity _ _ ih =>
        by_cases hsame : entity.fullName = target.fullName
        · exact hsame ▸ hbehind
        · exact exists_hasRank (hmem.2 (Or.inl ⟨hentity, hsame⟩)) ih

/-- With an alias, the same malformed nodes are met. -/
theorem isBroken_withAlias_iff (hnodup : graph.names.Nodup) (htarget : target ∈ graph.entities)
    (hfree : target.isFree = true) (hfresh : graph.IsFresh config name) :
    (graph.withAlias target name).IsBroken config ↔ graph.IsBroken config := by
  have hmem {entity : Entity} := @mem_withAlias_iff graph target entity name hnodup htarget
  have hranks {entity : Entity} (hentity : entity ∈ graph.entities) :
      (∃ rank, (graph.withAlias target name).HasRank config entity.fullName rank) ↔
        ∃ rank, graph.HasRank config entity.fullName rank :=
    exists_hasRank_withAlias_iff hnodup htarget hfree hfresh fun hname =>
      hfresh.names (hname ▸ Entity.fullName_mem_names hentity)
  constructor
  · rintro (⟨hentity, hmalformed⟩ | ⟨hentity, hrank, hdefinition, hmalformed⟩)
    · rcases hmem.1 hentity with ⟨hentity, -⟩ | rfl | rfl
      · exact .reference hentity hmalformed
      · exact absurd (hmalformed.symm.trans (isOrdinary_ref name).wellFormed) nofun
      · exact .reference htarget hmalformed
    · rcases hmem.1 hentity with ⟨hentity, -⟩ | rfl | rfl
      · obtain ⟨rank, hrank⟩ := (hranks hentity).1 ⟨_, hrank⟩
        exact .definition hentity hrank hdefinition hmalformed
      · obtain ⟨rank, hrank⟩ := (hranks htarget).1 ⟨_, hrank⟩
        exact .definition htarget hrank hdefinition hmalformed
      · exact absurd hdefinition nofun
  · rintro (@⟨entity, hentity, hmalformed⟩ |
      @⟨entity, definition, rank, hentity, hrank, hdefinition, hmalformed⟩)
    · by_cases hsame : entity.fullName = target.fullName
      · obtain rfl := List.inj_on_of_nodup_map hnodup hentity htarget hsame
        exact .reference (hmem.2 (Or.inr (Or.inr rfl))) hmalformed
      · exact .reference (hmem.2 (Or.inl ⟨hentity, hsame⟩)) hmalformed
    · obtain ⟨rank, hrank⟩ := (hranks hentity).2 ⟨_, hrank⟩
      by_cases hsame : entity.fullName = target.fullName
      · obtain rfl := List.inj_on_of_nodup_map hnodup hentity htarget hsame
        exact .definition (hmem.2 (Or.inr (Or.inl rfl))) hrank hdefinition hmalformed
      · exact .definition (hmem.2 (Or.inl ⟨hentity, hsame⟩)) hrank hdefinition hmalformed

/-! ## Results -/

/-- Solutions of the two modules make alike values of what an entity and its twin refer to. -/
theorem mirrors_withAlias {final last : Resolver} (hgraph : graph.IsDeclarative config)
    (htarget : target ∈ graph.entities) (hfree : target.isFree = true)
    (hfresh : graph.IsFresh config name)
    (hfinal : Resolver.IsSolution config catalog graph final)
    (hlast : Resolver.IsSolution config catalog (graph.withAlias target name) last)
    (hentity : entity ∈ graph.entities) :
    final.surroundings.Mirrors last.surroundings entity
      (if entity.fullName = target.fullName then entity.withReference (.ref name) else entity) := by
  have hclassify : target.reference.classify target.fullName = .ok .free := of_decide_eq_true hfree
  split
  · rename_i hname
    obtain rfl := List.inj_on_of_nodup_map hgraph.valid.nodup hentity htarget hname
    refine ⟨rfl, fun x y _ hx hy => ?_⟩
    obtain rfl := Surroundings.eq_of_yields hx (Surroundings.rests_of_classify hclassify)
    -- The alias holds the reference in the end.
    have halias : Entity.value name entity.reference ∈ (graph.withAlias entity name).entities :=
      (mem_withAlias_iff hgraph.valid.nodup htarget).2 (Or.inr (Or.inr rfl))
    obtain ⟨value, reference, hvalue, hyields, halike⟩ := hlast.solves _ halias
    obtain rfl := Surroundings.eq_of_yields hyields (Surroundings.rests_of_classify hclassify)
    have hmeaning := hlast.meaning_eq hvalue hfresh.exempt
    have hgrant : last.surroundings.grant? ⟨name, none⟩ = some value := by
      unfold Surroundings.grant?
      rw [show last.surroundings.meaning name = _ from hmeaning]
      rfl
    rw [Entity.reference_withReference,
      Surroundings.yields_target_iff (Form.recognize?_ref name) rfl, hgrant] at hy
    rw [show final.surroundings.config = config from hfinal.config_eq, hy]
    exact halike
  · refine ⟨rfl, fun x y hasked hx hy => ?_⟩
    have htame := hgraph.regular.tame hentity (hgraph.wellFormed entity hentity)
    exact Surroundings.yields_alike_of_corresponds (hfinal.config_congr hlast) htame
      (fun place placeholder hrequest => hasked placeholder (mem_requested_iff.2 ⟨place, hrequest⟩))
      hx hy

/-- With an alias for a fresh name, resolution ends as it does without it, and with the same
entities up to the names of added arguments. -/
theorem resolves_alike_withAlias (hgraph : graph.IsRigid config) (husable : config.HasUsableNumbers)
    (htarget : target ∈ graph.entities) (hfree : target.isFree = true)
    (hfresh : graph.IsFresh config name) (catalog : Catalog) :
    Ending.of ((graph.withAlias target name).resolve config catalog) =
        Ending.of (graph.resolve config catalog) ∧
      ∀ resolved linked stats stats',
        graph.resolve config catalog = .ok (resolved, stats) →
        (graph.withAlias target name).resolve config catalog = .ok (linked, stats') →
          ∃ counterparts added, linked.entities = counterparts ++ added ∧
            List.Forall₂ (Entity.Alike config) resolved.entities counterparts := by
  have halias := hgraph.withAlias htarget hfresh
  refine ⟨Ending.of_eq ?resolves ?structural, fun resolved linked stats stats' h h' => ?alike⟩
  case resolves =>
    rw [halias.resolves_iff, hgraph.resolves_iff,
      forall_values_withAlias_iff hgraph.valid.nodup htarget,
      isLinkable_withAlias_iff hgraph.valid.nodup htarget hfree hfresh]
    simp only [(isOrdinary_ref name).wellFormed, true_and]
  case structural =>
    rw [halias.structural_iff, hgraph.structural_iff,
      isBroken_withAlias_iff hgraph.valid.nodup htarget hfree hfresh]
  case alike =>
    have hdeclarative := hgraph.isDeclarative (hgraph.isWellFormed_of_resolve h)
    have hdeclarative' := halias.isDeclarative (halias.isWellFormed_of_resolve h')
    obtain ⟨final, hfinal, hsettles⟩ := Resolver.exists_solution hdeclarative husable h
    obtain ⟨last, hlast, hsettles'⟩ := Resolver.exists_solution hdeclarative' husable h'
    refine hfinal.forall₂_alike hdeclarative ((exists_resolve_iff hdeclarative catalog).1 ⟨_, h⟩)
      hlast rfl ?_ hsettles hsettles'
    exact List.forall₂_map_right_iff.2 (List.forall₂_same.2 fun entity hentity =>
      mirrors_withAlias hdeclarative htarget hfree hfresh hfinal hlast hentity)

/-- Two lists come into one pattern, the second one before the first one.  With an alias for the
second one, both come into it in one pass, and so under other names. -/
def numbered : ModuleGraph where
  name := "Main"
  entities := [
    .value "A" (.list [.string "a"]), .value "B" (.list [.string "b"]), .value "C" (.ref "B"),
    .value "Y" (.sub "${C} and ${A}" []),
    { fullName := "Queue"
      kind := .resource
      reference := .ref "@Queue"
      definition := some (.record { typeName := "Queue" } (.map [])
        (.map [("Tags", .sub "${Y} or ${A}" [])]))
      typeName := "Queue" }]

theorem resolves_alike_withAlias_numbered :
    numbered.IsRigid {} ∧ ({} : Config).HasUsableNumbers ∧
      .value "A" (.list [.string "a"]) ∈ numbered.entities ∧
      (Entity.value "A" (.list [.string "a"])).isFree = true ∧ numbered.IsFresh {} "A0" ∧
      Ending.of (numbered.resolve {} .permissive) = .linked ∧
      Ending.of ((numbered.withAlias (.value "A" (.list [.string "a"])) "A0").resolve {}
        .permissive) = Ending.of (numbered.resolve {} .permissive) ∧
      ∀ resolved linked stats stats', numbered.resolve {} .permissive = .ok (resolved, stats) →
        (numbered.withAlias (.value "A" (.list [.string "a"])) "A0").resolve {} .permissive =
          .ok (linked, stats') →
        ∃ counterparts added, linked.entities = counterparts ++ added ∧
          List.Forall₂ (Entity.Alike {}) resolved.entities counterparts := by
  have hlooks : ∀ entity ∈ numbered.entities, ∀ v ∈ entity.values,
      v.isWellFormed = true ∧ v.looksPlain {} = true := by
    decide +kernel
  have hordinary : ∀ entity ∈ numbered.entities, ∀ v ∈ entity.values, v.IsOrdinary := by
    intro entity hentity v hv
    obtain ⟨hwell, hplain⟩ := hlooks entity hentity v hv
    exact ⟨hwell, fun pattern => (Value.isPlain_of_looksPlain hplain).arguments (.string pattern)⟩
  have hnames : ∀ entity ∈ numbered.entities, ∀ v ∈ entity.values, ∀ name ∈ v.uses {},
      Text.startsWith "P" name = false ∧ name ≠ "A0" := by
    decide +kernel
  have hmarkers : ({} : Config).HasPlainMarkers := by
    constructor <;> decide
  have hrigid : numbered.IsRigid {} :=
    ⟨⟨by decide, by decide +kernel⟩, by decide, hmarkers,
      isRegular_of_isHarmless {} (by decide +kernel),
      fun entity hentity v hv =>
        isRigid_of_isWellFormed (hordinary entity hentity v hv).wellFormed,
      fun entity hentity v hv => (hordinary entity hentity v hv).arguments,
      fun entity hentity v hv name hname =>
        Surroundings.not_isSynthetic (hnames entity hentity v hv name hname).1⟩
  have husable : ({} : Config).HasUsableNumbers :=
    Config.hasUsableNumbers_of_head (show _ = some 'P' from rfl) (by decide) (by decide)
  have hfresh : numbered.IsFresh {} "A0" :=
    ⟨by decide, by decide, by decide, Surroundings.not_isSynthetic (by decide), by decide,
      fun entity hentity v hv hname => (hnames entity hentity v hv _ hname).2 rfl⟩
  exact ⟨hrigid, husable, List.mem_cons_self, by decide, hfresh, by decide +kernel,
    resolves_alike_withAlias hrigid husable List.mem_cons_self (by decide) hfresh .permissive⟩

/-! ## The conditions are needed -/

/-- How the resolution of a module ends, without and with an alias for the first entity. -/
def endings (config : Config) (entities : List Entity) : Ending × Option Ending :=
  let graph : ModuleGraph := ⟨"Main", entities⟩
  (.of (graph.resolve config .permissive), entities.head?.map fun target =>
    .of ((graph.withAlias target "A0").resolve config .permissive))

theorem alias_matters :
    endings {} [.value "A" (.string "t$\x7b"), .value "D" (.string "d"), .value "C" (.ref "D"),
        .value "Y" (.sub "${A}${C}" [])] = (.reported, some .linked) ∧
      endings {} [.value "A" (.string "R"), .value "R" (.string "r"),
        .value "Y" (.map [("Ref", .ref "A")])] = (.linked, some .structural) := by
  refine ⟨?_, ?_⟩ <;> decide +kernel

end ModuleGraph

end StackLinker
