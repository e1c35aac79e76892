import StackLinker.Proofs.Form.Places
import StackLinker.Proofs.Resolution.Accounting
import StackLinker.Proofs.Resolution.Linked

/-!
# Deferred names

An entity that the provider knows stands for its resource: others receive the identifier behind the
preserve marker, and no pass looks at such a name again.  So what asks for the entity when
resolution starts asks for its resource in the end, at the same place.  This holds of every
reference and every declaration of a module (`forall₂_of_resolve`).

## Strategy

* In one pass, a node that asks for the entity either stays or makes way for one that asks for the
  resource, and the latter stays (`isDeferring_settle`).  That it does not move is
  `Value.standsAt_of_rewrites`.
* The steps of a resolver preserve this of all references, since the reference of the entity itself
  is never changed (`Deferring`).
* In the end nothing asks for a name that is not exempt, so only the second kind of node is left
  (`turns_of_isLinked`).
-/

namespace Option.Rel

variable {α β γ : Type} {a : Option α} {b : Option β} {c : Option γ} {R : α → β → Prop}
  {S : β → γ → Prop}

theorem isSome_eq (h : Rel R a b) : b.isSome = a.isSome := by
  cases h <;> rfl

theorem exists_of_eq_some {y : β} (h : Rel R a b) (hb : b = Option.some y) :
    ∃ x, a = Option.some x ∧ R x y := by
  cases h with
  | none => simp at hb
  | some hxy => exact ⟨_, rfl, Option.some.inj hb ▸ hxy⟩

theorem imp {T : α → β → Prop} (h : Rel R a b) (himp : ∀ {x y}, R x y → T x y) : Rel T a b := by
  cases h with
  | none => exact .none
  | some h => exact .some (himp h)

theorem comp {T : α → γ → Prop} (first : Rel R a b) (hcomp : ∀ {x y z}, R x y → S y z → T x z)
    (second : Rel S b c) : Rel T a c := by
  cases first with
  | none =>
      cases second
      exact .none
  | some hfirst =>
      cases second with
      | some hsecond => exact .some (hcomp hfirst hsecond)

end Option.Rel

namespace StackLinker

namespace Value

variable {v w x node : Value} {placeholder : Placeholder}

/-- Whether a node is a reference or an attribute that asks for a placeholder. -/
def AsksFor (node : Value) (placeholder : Placeholder) : Prop :=
  ∃ form, Form.recognize? node = .ok (some form) ∧ form.placeholder? = some placeholder

theorem AsksFor.isReserved (h : node.AsksFor placeholder) : node.isReserved = true := by
  obtain ⟨form, hform, -⟩ := h
  exact Form.isReserved_of_recognize? hform

/-- Where a node asks for something before, a node that asks for something else stands after. -/
def Turns (before after : Option String → Value → Prop) (v w : Value) : Prop :=
  ∀ place node attr, v.StandsAt place node → before attr node →
    ∃ x, w.StandsAt place x ∧ after attr x

theorem turns_refl (before : Option String → Value → Prop) (v : Value) : Turns before before v v :=
  fun _ node _ hstands hnode => ⟨node, hstands, hnode⟩

theorem Turns.trans {before between after : Option String → Value → Prop}
    (first : Turns before between v w) (second : Turns between after w x) :
    Turns before after v x := by
  intro place node attr hstands hnode
  obtain ⟨other, hother, hbetween⟩ := first place node attr hstands hnode
  exact second place other attr hother hbetween

end Value

namespace Entity

variable {config : Config} {provider target : Entity} {attr : Option String} {x : Value}

/-- How an entity comes from another one in a stage of linking, which changes values only. -/
structure Corresponds (R : Value → Value → Prop) (origin entity : Entity) : Prop where
  fullName : entity.fullName = origin.fullName
  kind : entity.kind = origin.kind
  typeName : entity.typeName = origin.typeName
  reference : R origin.reference entity.reference
  definition : Option.Rel R origin.definition entity.definition

theorem logicalId_congr (h : target.fullName = provider.fullName) :
    target.logicalId config = provider.logicalId config := by
  rw [logicalId, logicalId, h]

theorem resourceName_congr (h : target.fullName = provider.fullName) :
    target.resourceName config = provider.resourceName config := by
  rw [resourceName, resourceName, logicalId_congr h]

/-- Whether a node asks for an entity or an attribute of it, by its full name or by the name of its
resource. -/
def IsDeferring (config : Config) (provider : Entity) (attr : Option String) (x : Value) : Prop :=
  x.AsksFor ⟨provider.fullName, attr⟩ ∨ x.AsksFor ⟨provider.resourceName config, attr⟩

theorem IsDeferring.asksFor (h : provider.IsDeferring config attr x) :
    ∃ key, x.AsksFor ⟨key, attr⟩ :=
  h.elim (fun h => ⟨_, h⟩) fun h => ⟨_, h⟩

end Entity

namespace Surroundings

variable {around : Surroundings} {source : String} {path : Path} {node v w : Value}
  {outcome later : Outcome} {placeholder : Placeholder} {provider : Entity} {attr : Option String}

/-! ## Passes -/

/-- What a free entity gives to those who ask for it. -/
def supply (around : Surroundings) (target : Entity) : Option String → Value
  | none => target.reference
  | some attr => .getAtt (target.resourceName around.config) attr

/-- What asks for a name stays in place or makes way for what the entity gives. -/
theorem settle_of_placeholder (around : Surroundings) {form : Form}
    (h : form.placeholder? = some placeholder) :
    (around.settle source path node form outcome).1 = node ∨
      ∃ target, around.meaning placeholder.name = .free target ∧
        (around.settle source path node form outcome).1 =
          around.supply target placeholder.attr := by
  cases form with
  | reference key =>
      obtain rfl := Option.some.inj h
      simp only [settle, reference]
      cases hmeaning : around.meaning key with
      | free target => exact Or.inr ⟨target, rfl, rfl⟩
      | _ => exact Or.inl rfl
  | attributeOf key attr =>
      obtain rfl := Option.some.inj h
      simp only [settle, attributeOf]
      cases hmeaning : around.meaning key with
      | free target =>
          simp only
          split
          · exact Or.inr ⟨target, rfl, rfl⟩
          · exact Or.inl rfl
      | _ => exact Or.inl rfl
  | substitution => simp [Form.placeholder?] at h

/-- A substitution with arguments becomes one with the same arguments and added ones behind. -/
theorem settle_template (around : Surroundings) (source : String) (path : Path) (pattern : String)
    {arguments : Fields Value} (hne : arguments ≠ []) (outcome : Outcome) :
    ∃ text added, (∀ argument ∈ added, around.IsAdded argument) ∧
      (around.settle source path (.template pattern (some arguments))
        (.substitution pattern (some arguments)) outcome).1 =
          .template text (some (arguments ++ added)) := by
  obtain ⟨text, filling, hfill, -, hresult⟩ := substitution_cases around source path
    (.template pattern (some arguments)) pattern (some arguments) outcome
  have hgrows := growsTo_fill around source path pattern (.start (some arguments) outcome)
  rw [hfill] at hgrows
  obtain ⟨added, hadded, hnew⟩ := hgrows.arguments
  have hall : filling.arguments = arguments ++ added := hadded
  rcases hresult with ⟨hnil, -, -⟩ | ⟨-, hsub⟩ | ⟨-, hnode⟩
  · simp [hall, hne] at hnil
  · refine ⟨text, added, hnew, ?_⟩
    rw [settle, hsub, Value.sub_eq_template, hall]
    simp [hne]
  · exact ⟨pattern, [], by simp, by rw [settle, hnode, List.append_nil]⟩

theorem keepsArguments_settle (around : Surroundings) (source : String) :
    (around.settle source).KeepsArguments := by
  intro path pattern arguments outcome hne
  obtain ⟨text, added, -, hresult⟩ := settle_template around source path pattern hne outcome
  exact ⟨text, added, hresult⟩

/-- Free entities with the name of a provider entity stand for its resource. -/
def Defers (around : Surroundings) (provider : Entity) : Prop :=
  ∀ target ∈ around.free, target.fullName = provider.fullName →
    target.reference = .ref (provider.resourceName around.config)

theorem asksFor_supply (hdefers : around.Defers provider) {target : Entity}
    (hmeaning : around.meaning provider.fullName = .free target) (attr : Option String) :
    (around.supply target attr).AsksFor ⟨provider.resourceName around.config, attr⟩ := by
  have hname : target.fullName = provider.fullName :=
    Entity.fullName_of_find? (meaning_eq_free_iff.1 hmeaning).2
  cases attr with
  | none =>
      rw [supply, hdefers target (mem_free_of_meaning hmeaning) hname]
      exact ⟨_, Form.recognize?_ref _, rfl⟩
  | some attr =>
      rw [supply, Entity.resourceName_congr hname]
      exact ⟨_, Form.recognize?_getAtt _ _, rfl⟩

/-- What asks for a resource by its name stays as it is, since the name carries the preserve
marker. -/
theorem settle_resource (hmark : around.config.preserveMarker ≠ "") {form : Form}
    (h : form.placeholder? = some ⟨provider.resourceName around.config, attr⟩) :
    (around.settle source path node form outcome).1 = node := by
  rcases settle_of_placeholder around h with hsame | ⟨target, hmeaning, -⟩
  · exact hsame
  · have hexempt := (meaning_eq_free_iff.1 hmeaning).1
    rw [Config.isExempt_resourceName hmark] at hexempt
    simp at hexempt

theorem isDeferring_settle (hmark : around.config.preserveMarker ≠ "")
    (hdefers : around.Defers provider) (hnode : provider.IsDeferring around.config attr node)
    {form : Form} (hform : Form.recognize? node = .ok (some form)) :
    provider.IsDeferring around.config attr (around.settle source path node form outcome).1 := by
  have hsame : ∀ {key}, node.AsksFor ⟨key, attr⟩ → form.placeholder? = some ⟨key, attr⟩ := by
    rintro key ⟨other, hother, hplaceholder⟩
    rw [hform] at hother
    obtain rfl : form = other := by simpa using hother
    exact hplaceholder
  rcases hnode with hname | hresource
  · rcases settle_of_placeholder around (hsame hname) with hkept | ⟨target, hfree, hnew⟩
    · exact Or.inl (hkept ▸ hname)
    · exact Or.inr (hnew ▸ asksFor_supply hdefers hfree attr)
  · rw [settle_resource hmark (hsame hresource)]
    exact Or.inr hresource

/-- Where a node asks for a provider entity, one that asks for it stands after a pass. -/
theorem turns_of_rewrites (hmark : around.config.preserveMarker ≠ "")
    (hdefers : around.Defers provider)
    (h : v.Rewrites (around.rule source) path outcome w later) :
    v.Turns (provider.IsDeferring around.config) (provider.IsDeferring around.config) w := by
  intro place node attr hstands hnode
  obtain ⟨key, form, hform, hplaceholder⟩ := hnode.asksFor
  refine Value.standsAt_of_rewrites (keepsArguments_settle around source) ?_ hform
    (Form.placeholder?_eq_some hplaceholder) ?_ h hstands
  · intro x hx
    obtain ⟨_, hasks⟩ := hx.asksFor
    exact hasks.isReserved
  · exact fun path notes => isDeferring_settle hmark hdefers hnode hform

/-- The reference of a provider entity is left as it is. -/
theorem rewrites_resource (hmark : around.config.preserveMarker ≠ "")
    (h : (Value.ref (provider.resourceName around.config)).Rewrites (around.rule source) path
      outcome w later) :
    w = .ref (provider.resourceName around.config) := by
  have haction := (Value.rewrites_target_iff (Form.recognize?_ref _) rfl).1 h
  have hsame : (around.settle source path (.ref (provider.resourceName around.config))
      (.reference (provider.resourceName around.config)) outcome).1 = .ref _ :=
    settle_resource hmark rfl
  rwa [haction] at hsame

end Surroundings

namespace Resolver

variable {config : Config} {catalog : Catalog} {graph resolved : ModuleGraph} {provider : Entity}
  {resolver next final : Resolver} {n : Nat} {stats : Stats}

/-! ## Steps -/

/-- What the passes of a step preserve of every reference, the step preserves. -/
theorem forall_references_step {R : String → Value → Prop}
    (hpass : ∀ {name v w outcome}, resolver.surroundings.apply name v = .ok (w, outcome) →
      R name v → R name w)
    (h : ∀ entity ∈ resolver.free ++ resolver.bound, R entity.fullName entity.reference)
    (hstep : resolver.step = (next, .ok n)) :
    ∀ entity ∈ next.free ++ next.bound, R entity.fullName entity.reference :=
  forall_entities_step (Q := fun entity => R entity.fullName entity.reference)
    (fun happly hentity => hpass happly hentity) h hstep

/-- What is known of a reference while a module with a provider entity is resolved: that of the
provider entity itself stays, and every other asks for the entity where its declaration does. -/
structure References (config : Config) (graph : ModuleGraph) (provider : Entity) (name : String)
    (v : Value) : Prop where
  own : name = provider.fullName → v = .ref (provider.resourceName config)
  turns : ∀ origin ∈ graph.entities, origin.fullName = name →
    origin.reference.Turns (provider.IsDeferring config) (provider.IsDeferring config) v

/-- What the steps of a resolver preserve in a module with a provider entity. -/
structure Deferring (config : Config) (graph : ModuleGraph) (provider : Entity)
    (resolver : Resolver) : Prop where
  kept : ∃ rounds, Kept graph rounds resolver
  linked : FreeLinked config resolver
  references : ∀ entity ∈ resolver.free ++ resolver.bound,
    References config graph provider entity.fullName entity.reference

theorem deferring_start {partition : Partition} (hnodup : graph.names.Nodup)
    (hprovider : provider ∈ graph.entities)
    (hown : provider.reference = .ref (provider.resourceName config))
    (h : graph.partition = .ok partition) :
    Deferring config graph provider (start config catalog partition) := by
  refine ⟨⟨[], kept_start h config catalog⟩, freeLinked_start h, ?_⟩
  intro entity hentity
  refine ⟨fun hname => ?_, fun origin horigin hname => ?_⟩
  · rw [← declared_eq_of_start hnodup h hprovider hentity hname.symm, hown]
  · rw [declared_eq_of_start hnodup h horigin hentity hname]
    exact Value.turns_refl _ _

theorem deferring_step (hmark : config.preserveMarker ≠ "")
    (h : Deferring config graph provider resolver) (hstep : resolver.step = (next, .ok n)) :
    Deferring config graph provider next := by
  obtain ⟨rounds, hkept⟩ := h.kept
  obtain rfl : resolver.config = config := h.linked.config_eq
  have hdefers : resolver.surroundings.Defers provider := fun target htarget =>
    (h.references target (List.mem_append_left _ htarget)).own
  refine ⟨hkept.step hstep, freeLinked_step hmark h.linked hstep, ?_⟩
  refine forall_references_step ?_ h.references hstep
  intro name v w outcome happly hv
  have hrewrites := Surroundings.apply_eq_ok_iff.1 happly
  refine ⟨fun hname => ?_, fun origin horigin hname => ?_⟩
  · obtain rfl := hv.own hname
    exact Surroundings.rewrites_resource hmark hrewrites
  · exact (hv.turns origin horigin hname).trans
      (Surroundings.turns_of_rewrites hmark hdefers hrewrites)

/-! ## The resolved module -/

/-- In a linked value, nodes ask for a provider entity by the name of its resource. -/
theorem turns_of_isLinked {v w : Value} (hexempt : config.isExempt provider.fullName = false)
    (h : v.Turns (provider.IsDeferring config) (provider.IsDeferring config) w)
    (hlinked : w.IsLinked config) :
    v.Turns (provider.IsDeferring config)
      (fun attr x => x.AsksFor ⟨provider.resourceName config, attr⟩) w := by
  intro place node attr hstands hnode
  obtain ⟨x, hx, hname | hresource⟩ := h place node attr hstands hnode
  · obtain ⟨form, hform, hplaceholder⟩ := hname
    have hasked := hlinked x (Value.mem_nodes_of_at? hx.at_eq) form provider.fullName hform
      (Form.placeholder?_eq_some hplaceholder)
    simp [hexempt] at hasked
  · exact ⟨x, hx, hresource⟩

/-- Linking the declaration of a free entity changes nothing else of the entity. -/
theorem corresponds_linkFree {around : Surroundings} {R : Value → Value → Prop}
    {origin entity : Entity} {value : Value} (hfree : origin.withReference value ∈ around.free)
    (h : linkFree around (origin.withReference value) = .ok (entity, []))
    (hreference : R origin.reference value)
    (hdefinition : ∀ declared linked outcome, around.apply origin.fullName declared =
      .ok (linked, outcome) → entity.definition = some linked → R declared linked) :
    Entity.Corresponds R origin entity := by
  rcases linkFree_eq_ok hfree h with ⟨hnone, rfl⟩ | ⟨_, _, _, hsome, happly, rfl, -⟩
  · rw [Entity.definition_withReference] at hnone
    refine ⟨rfl, rfl, rfl, hreference, ?_⟩
    rw [Entity.definition_withReference, hnone]
    exact .none
  · rw [Entity.definition_withReference] at hsome
    refine ⟨rfl, rfl, rfl, hreference, ?_⟩
    rw [hsome]
    exact .some (hdefinition _ _ _ happly rfl)

/-- A module that resolution hands back has the declared entities, one by one, and where a reference
or a declaration asked for a provider entity, it asks for the entity's resource. -/
theorem forall₂_of_resolve {partition : Partition} (hmark : config.preserveMarker ≠ "")
    (hvalid : graph.Valid) (hprovider : provider ∈ graph.entities)
    (hown : provider.reference = .ref (provider.resourceName config))
    (hexempt : config.isExempt provider.fullName = false)
    (hpartition : graph.partition = .ok partition)
    (h : resolve config catalog partition = .ok (resolved, stats)) :
    List.Forall₂ (Entity.Corresponds (Value.Turns (provider.IsDeferring config)
      fun attr x => x.AsksFor ⟨provider.resourceName config, attr⟩))
      graph.entities resolved.entities := by
  obtain ⟨final, hfinal, hend⟩ := resolve_invariant (deferring_step hmark)
    (deferring_start hvalid.nodup hprovider hown hpartition) h
  obtain ⟨rounds, hkept⟩ := hfinal.kept
  obtain rfl : final.config = config := hfinal.linked.config_eq
  refine (hend.forall₂_declared hkept hvalid).imp ?_
  rintro origin entity ⟨value, horigin, hfree, hlink⟩
  have hlinked := hfinal.linked.linked hend.diagnostics
  have hreferences := hfinal.references _ (List.mem_append_left _ hfree)
  have hdefers : final.surroundings.Defers provider := fun target htarget =>
    (hfinal.references target (List.mem_append_left _ htarget)).own
  refine corresponds_linkFree hfree hlink
    (turns_of_isLinked hexempt (hreferences.turns origin horigin rfl) (hlinked _ hfree)) ?_
  intro declared value outcome happly hvalue
  exact turns_of_isLinked hexempt
    (Surroundings.turns_of_rewrites hmark hdefers (Surroundings.apply_eq_ok_iff.1 happly))
    (isLinked_linkFree hmark hlinked hend.bound_surroundings hfree hlink hvalue)

end Resolver

end StackLinker
