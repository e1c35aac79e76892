import StackLinker.Proofs.Resolution.Deferral

/-!
# Maps that stay maps

A pass may put a value of any shape into the place of a map, if the map is a form.  But only a
reference and a substitution give way to something else: an attribute makes way for another
attribute, and the reference to an exempt name stays.  So a map that is neither a substitution nor a
reference to be looked up is a map in every later pass (`isLasting_of_rewrites`).

A reference to be looked up becomes what its target is when it is free.  If the chain of declared
references that starts there ends in a lasting map, then the node is such a map as soon as nothing
holds it back (`GivesMap`), and in a resolved module nothing does (`sections_of_resolve`).
-/

namespace StackLinker

namespace Value

/-- Whether a value is a map that no pass replaces by anything but a map: it is no substitution, and
if it is a reference, then to an exempt name. -/
def isLasting (config : Config) : Value → Bool
  | .map [(key, body)] =>
    if key = Form.refKey then body.asString.any config.isExempt else key != Form.subKey
  | .map _ => true
  | _ => false

variable {config : Config} {v : Value}

/-- Whether a value is a declaration whose two sections have a property. -/
def HasSections (P : Value → Prop) (v : Value) : Prop :=
  ∃ header metadata properties, v = .record header metadata properties ∧ P metadata ∧ P properties

theorem exists_map_of_isLasting (h : v.isLasting config = true) : ∃ entries, v = .map entries := by
  cases v with
  | map entries => exact ⟨entries, rfl⟩
  | _ => simp [isLasting] at h

theorem isLasting_ref_iff {key : String} :
    (Value.ref key).isLasting config = true ↔ config.isExempt key = true := by
  simp [isLasting, ref, string, asString]

theorem isLasting_getAtt (config : Config) (key attr : String) :
    (Value.getAtt key attr).isLasting config = true := rfl

theorem not_isLasting_template (config : Config) (pattern : String)
    (arguments : Option (Fields Value)) :
    (template pattern arguments).isLasting config = false := rfl

end Value

namespace Surroundings

variable {around : Surroundings} {source : String} {path : Path} {node v w : Value}
  {outcome later : Outcome}

/-! ## Passes -/

theorem isLasting_settle {form : Form} (hform : Form.recognize? node = .ok (some form))
    (hnode : node.isLasting around.config = true) :
    (around.settle source path node form outcome).1.isLasting around.config = true := by
  cases form with
  | reference key =>
      obtain rfl := Form.recognize?_eq_reference_iff.1 hform
      have hexempt := meaning_eq_exempt_iff.2 (Value.isLasting_ref_iff.1 hnode)
      simpa only [settle, reference, hexempt] using hnode
  | attributeOf key attr =>
      have hplaceholder : (Form.attributeOf key attr).placeholder? = some ⟨key, some attr⟩ := rfl
      rcases settle_of_placeholder around hplaceholder with hsame | ⟨target, -, hnew⟩
      · rwa [hsame]
      · rw [hnew]
        exact Value.isLasting_getAtt _ _ _
  | substitution pattern arguments =>
      obtain rfl := Form.recognize?_eq_substitution_iff.1 hform
      simp [Value.not_isLasting_template] at hnode

/-- Whether a map lasts is a matter of its keys, and of the name in a reference. -/
private theorem isLasting_of_thread {rule : Rule Outcome} {entries parts : Fields Value}
    (h : Thread (fun key => Value.Rewrites rule (path.push key)) entries outcome parts later)
    (hentries : (Value.map entries).isLasting around.config = true) :
    (Value.map parts).isLasting around.config = true := by
  rcases h with _ | @⟨key, x, y, _, _, _, _, _, head, _ | tail⟩
  · rfl
  · by_cases hkey : key = Form.refKey
    · simp only [Value.isLasting, if_pos hkey, Option.any_eq_true] at hentries ⊢
      obtain ⟨name, hname, hexempt⟩ := hentries
      obtain rfl := Form.asString_eq_some_iff.1 hname
      obtain ⟨rfl, -⟩ := Value.rewrites_scalar_iff.1 head
      exact ⟨name, rfl, hexempt⟩
    · simpa only [Value.isLasting, if_neg hkey] using hentries
  · rfl

/-- A lasting map is a lasting map after a pass. -/
theorem isLasting_of_rewrites (h : v.Rewrites (around.rule source) path outcome w later)
    (hv : v.isLasting around.config = true) : w.isLasting around.config = true := by
  obtain ⟨entries, rfl⟩ := Value.exists_map_of_isLasting hv
  obtain ⟨parts, between, hthread, hrule⟩ := (Value.rewrites_iff rfl).1 h
  have hparts : (Value.map parts).isLasting around.config = true := isLasting_of_thread hthread hv
  rcases Rule.ofForms_eq_ok hrule with ⟨-, rfl, -⟩ | ⟨form, hform, hsettle⟩
  · exact hparts
  · have hw : (around.settle source path (.map parts) form between).1 = w :=
      congrArg Prod.fst hsettle
    exact hw ▸ isLasting_settle hform hparts

end Surroundings

/-! ## Chains of references -/

/-- The values that end up as maps: lasting maps, and references to entities whose declared
references end up as maps. -/
inductive ModuleGraph.GivesMap (config : Config) (graph : ModuleGraph) : Value → Prop
  | lasting {v : Value} (h : v.isLasting config = true) : GivesMap config graph v
  | forward {name : String} {target : Entity} (htarget : graph.get? name = some target)
      (h : GivesMap config graph target.reference) : GivesMap config graph (.ref name)

variable {config : Config} {graph : ModuleGraph} {v w : Value}

theorem ModuleGraph.GivesMap.exists_map (h : graph.GivesMap config v) :
    ∃ entries, v = .map entries := by
  cases h with
  | lasting h => exact Value.exists_map_of_isLasting h
  | forward => exact ⟨_, rfl⟩

/-- Whether the free entities from which a map is to be had hold lasting maps. -/
def Surroundings.HoldsMaps (around : Surroundings) (graph : ModuleGraph) : Prop :=
  ∀ origin ∈ graph.entities, graph.GivesMap around.config origin.reference →
    ∀ entity ∈ around.free, entity.fullName = origin.fullName →
      entity.reference.isLasting around.config = true

/-- What ends up as a map is a lasting map after a pass, or it stays and the pass notes a name. -/
theorem Surroundings.HoldsMaps.pass {around : Surroundings} {source : String} {path : Path}
    {outcome later : Outcome} (hholds : around.HoldsMaps graph)
    (hv : graph.GivesMap around.config v)
    (h : v.Rewrites (around.rule source) path outcome w later) :
    w.isLasting around.config = true ∨ w = v ∧ later.unresolved ≠ [] := by
  cases hv with
  | lasting hlasting => exact Or.inl (isLasting_of_rewrites h hlasting)
  | @forward name target htarget hgives =>
      have haction := (Value.rewrites_target_iff (Form.recognize?_ref _) rfl).1 h
      simp only [settle, reference] at haction
      cases hmeaning : around.meaning name with
      | exempt =>
          rw [hmeaning] at haction
          obtain rfl := congrArg Prod.fst haction
          exact Or.inl (Value.isLasting_ref_iff.2 (meaning_eq_exempt_iff.1 hmeaning))
      | free entity =>
          rw [hmeaning] at haction
          obtain rfl := congrArg Prod.fst haction
          have hname : entity.fullName = target.fullName :=
            (Entity.fullName_of_find? (meaning_eq_free_iff.1 hmeaning).2).trans
              (Entity.fullName_of_find? htarget).symm
          exact Or.inl (hholds target (Entity.mem_of_find? htarget) hgives entity
            (mem_free_of_meaning hmeaning) hname)
      | bound | missing =>
          rw [hmeaning] at haction
          obtain ⟨rfl, rfl⟩ := Prod.mk.inj haction
          exact Or.inr ⟨rfl, List.ne_nil_of_mem
            (Outcome.mem_unresolved_leave.2 (Or.inr ⟨rfl, rfl⟩))⟩

namespace Resolver

variable {catalog : Catalog} {resolved : ModuleGraph} {partition : Partition}
  {resolver next : Resolver} {n : Nat} {stats : Stats}

/-! ## Steps -/

/-- What the steps of a resolver preserve of the entities from which a map is to be had. -/
structure ProvidesMaps (config : Config) (graph : ModuleGraph) (resolver : Resolver) : Prop where
  kept : ∃ rounds, Kept graph rounds resolver
  config_eq : resolver.config = config
  free : resolver.surroundings.HoldsMaps graph
  gives : ∀ entity ∈ resolver.free ++ resolver.bound, ∀ origin ∈ graph.entities,
    origin.fullName = entity.fullName → graph.GivesMap config origin.reference →
      graph.GivesMap config entity.reference

theorem providesMaps_start (hnodup : graph.names.Nodup) (h : graph.partition = .ok partition) :
    ProvidesMaps config graph (start config catalog partition) := by
  refine ⟨⟨[], kept_start h config catalog⟩, rfl, ?free, ?gives⟩
  case free =>
    -- No map is free by its shape.
    intro origin horigin hgives entity hentity hname
    have hfree : entity ∈ (start config catalog partition).free := hentity
    obtain rfl := declared_eq_of_start hnodup h horigin (List.mem_append_left _ hfree) hname.symm
    obtain ⟨entries, hmap⟩ := hgives.exists_map
    have hclass := classify_of_start h hfree
    simp [hmap, Value.classify] at hclass
  case gives =>
    intro entity hentity origin horigin hname hgives
    exact declared_eq_of_start hnodup h horigin hentity hname ▸ hgives

theorem ProvidesMaps.step (h : ProvidesMaps config graph resolver)
    (hstep : resolver.step = (next, .ok n)) : ProvidesMaps config graph next := by
  obtain ⟨rounds, hkept⟩ := h.kept
  obtain rfl := h.config_eq
  have hconfig : next.config = resolver.config := by rw [(step_eq_ok hstep).2.2]
  refine ⟨hkept.step hstep, hconfig, ?free, ?gives⟩
  case free =>
    intro origin horigin hgives entity hentity hname
    have hgives : graph.GivesMap resolver.config origin.reference := hconfig ▸ hgives
    have hlasting : entity.reference.isLasting resolver.config = true := by
      rcases of_mem_free_step hstep hentity with
        hold | ⟨pending, hpending, value, outcome, happly, hresolved, rfl⟩
      · exact h.free origin horigin hgives entity hold hname
      · -- A promoted entity was not held back by any name.
        have hbound : pending.entity ∈ resolver.free ++ resolver.bound :=
          List.mem_append_right _ (List.mem_map_of_mem hpending)
        have hpass := h.free.pass (h.gives _ hbound origin horigin hname.symm hgives)
          (Surroundings.apply_eq_ok_iff.1 happly)
        exact hpass.resolve_right fun hnoted => hnoted.2 (Outcome.isResolved_iff.1 hresolved)
    rwa [← hconfig] at hlasting
  case gives =>
    refine forall_references_step (R := fun name v => ∀ origin ∈ graph.entities,
      origin.fullName = name → graph.GivesMap resolver.config origin.reference →
        graph.GivesMap resolver.config v) ?_ h.gives hstep
    intro name v w outcome happly hv origin horigin hname hgives
    rcases h.free.pass (hv origin horigin hname hgives) (Surroundings.apply_eq_ok_iff.1 happly) with
      hlasting | ⟨rfl, -⟩
    · exact .lasting hlasting
    · exact hv origin horigin hname hgives

/-! ## Declarations -/

/-- In a module that resolution hands back, the sections of declarations that end up as maps are
lasting maps. -/
theorem sections_of_resolve (hvalid : graph.Valid) (hpartition : graph.partition = .ok partition)
    (h : resolve config catalog partition = .ok (resolved, stats))
    (hgives : ∀ entity ∈ graph.entities, ∀ definition, entity.definition = some definition →
      definition.HasSections (graph.GivesMap config)) :
    ∀ entity ∈ resolved.entities, ∀ definition, entity.definition = some definition →
      definition.HasSections fun v => v.isLasting config = true := by
  obtain ⟨final, hfinal, hend⟩ := resolve_invariant ProvidesMaps.step
    (providesMaps_start hvalid.nodup hpartition) h
  obtain ⟨rounds, hkept⟩ := hfinal.kept
  obtain rfl := hfinal.config_eq
  intro entity hentity definition hdefinition
  obtain ⟨origin, -, value, horigin, hfree, hlink⟩ :=
    (hend.forall₂_declared hkept hvalid).exists_of_mem_right hentity
  obtain ⟨declared, outcome, hdeclared, happly, hclean⟩ :=
    exists_declared_linkFree hend.bound_surroundings hfree hlink hdefinition
  obtain ⟨header, metadata, properties, rfl, hmetadata, hproperties⟩ :=
    hgives origin horigin declared hdeclared
  obtain ⟨x, y, between, rfl, hx, hy⟩ :=
    Value.rewrites_record_iff.1 (Surroundings.apply_eq_ok_iff.1 happly)
  -- Notes only grow, so no name was noted in the metadata either.
  have hbetween := (Surroundings.growsTo_rewrites hy).isClean hclean
  exact ⟨header, x, y, rfl,
    (hfinal.free.pass hmetadata hx).resolve_right fun hnoted => hnoted.2 hbetween.1,
    (hfinal.free.pass hproperties hy).resolve_right fun hnoted => hnoted.2 hclean.1⟩

end Resolver

end StackLinker
