import StackLinker.Proofs.Config.Markers
import StackLinker.Proofs.Resolution.Settled
import StackLinker.Proofs.Substitution.Answers

/-!
# Nothing is left unlinked

When a resolution succeeds, no reference and no attribute in the module asks for a name any more,
except for the names that are exempt.

The proof has three parts.

* A pass that ends with clean notes leaves a linked value behind, provided that the references of
  the free entities are linked (`isLinked_of_rewrites`).  Values come into a tree in three places:
  a reference gives way to the value of a free entity, an attribute to one of a provider resource,
  whose name carries the preserve marker, and a substitution receives added arguments.
* As long as a resolver has no diagnostics, the references of its free entities are linked.  Sweeps
  preserve this (`freeLinked_step`).
* In a module that is handed back all entities are free, and their declarations were linked
  without findings (`resolve_invariant`).
-/

namespace StackLinker

namespace Value

variable {config : Config} {v : Value}

/-- No reference and no attribute in the value asks for a name that is not exempt. -/
def IsLinked (config : Config) (v : Value) : Prop :=
  ∀ node ∈ v.nodes, ∀ form key, Form.recognize? node = .ok (some form) →
    form.target? = some key → config.isExempt key = true

/-- A value is linked if its root and its parts are. -/
theorem isLinked_iff : v.IsLinked config ↔
    (∀ form key, Form.recognize? v = .ok (some form) → form.target? = some key →
      config.isExempt key = true) ∧ ∀ child ∈ v.children, child.2.IsLinked config := by
  constructor
  · intro h
    exact ⟨h v (self_mem_nodes v), fun child hchild node hnode =>
      h node (mem_nodes_of_mem_children hchild hnode)⟩
  · rintro ⟨hself, hparts⟩ node hnode
    rcases mem_nodes.1 hnode with rfl | ⟨child, hchild, hnode⟩
    · exact hself
    · exact hparts child hchild node hnode

/-- A value whose root stands for no reference and no attribute is linked if its parts are. -/
theorem isLinked_of_children
    (hroot : ∀ form, Form.recognize? v = .ok (some form) → form.target? = none)
    (h : ∀ child ∈ v.children, child.2.IsLinked config) : v.IsLinked config := by
  refine isLinked_iff.2 ⟨fun form key hform htarget => ?_, h⟩
  simp [hroot form hform] at htarget

theorem isLinked_of_not_isReserved (hordinary : v.isReserved = false)
    (h : ∀ child ∈ v.children, child.2.IsLinked config) : v.IsLinked config := by
  refine isLinked_of_children (fun form hform => ?_) h
  simp [recognize?_of_not_isReserved hordinary] at hform

theorem isLinked_scalar (s : Scalar) : (Value.scalar s).IsLinked config :=
  isLinked_of_not_isReserved rfl (by simp [children])

theorem isLinked_list_iff {items : List Value} :
    (Value.list items).IsLinked config ↔ ∀ item ∈ items, item.IsLinked config := by
  constructor
  · exact fun h => forall_children_list.1 (isLinked_iff.1 h).2
  · exact fun h => isLinked_of_not_isReserved rfl (forall_children_list.2 h)

/-- A reference that is settled by its shape is linked. -/
theorem isLinked_of_classify {name : String} (h : v.classify name = .ok .free) :
    v.IsLinked config := by
  rcases classify_eq_free_iff.1 h with ⟨s, rfl⟩ | ⟨items, rfl, hscalars⟩
  · exact isLinked_scalar s
  · rw [isLinked_list_iff]
    intro item hitem
    obtain ⟨s, rfl⟩ := hscalars item hitem
    exact isLinked_scalar s

theorem isLinked_getAtt {key attr : String} (h : config.isExempt key = true) :
    (Value.getAtt key attr).IsLinked config := by
  rw [isLinked_iff]
  constructor
  · intro form other hform htarget
    rw [Form.recognize?_getAtt] at hform
    simp only [Except.ok.injEq, Option.some.injEq] at hform
    subst hform
    rw [← Option.some.inj htarget, h]
  · simp only [getAtt, children, List.forall_mem_singleton]
    rw [isLinked_list_iff]
    intro item hitem
    simp only [List.mem_cons, List.not_mem_nil, or_false] at hitem
    rcases hitem with rfl | rfl <;> exact isLinked_scalar _

theorem isLinked_template_iff {pattern : String} {arguments : Option (Fields Value)} :
    (Value.template pattern arguments).IsLinked config ↔
      ∀ map, arguments = some map → (Value.map map).IsLinked config := by
  refine forall_mem_nodes_template ?_ (by simp [string, Form.recognize?])
    (by simp [Form.recognize?])
  intro form key hform htarget
  simp only [Form.recognize?_template, Except.ok.injEq, Option.some.injEq] at hform
  simp [← hform, Form.target?] at htarget

end Value

/-! ## One pass -/

namespace Surroundings

variable {around : Surroundings} {source : String} {path : Path} {node v w : Value}
  {outcome later : Outcome}

private theorem isLinked_sub {arguments : Option (Fields Value)} {text : String}
    {added : Fields Value}
    (hdeclared : ∀ map, arguments = some map → (Value.map map).IsLinked around.config)
    (hadded : ∀ argument ∈ added, around.IsAdded argument)
    (hfree : ∀ target ∈ around.free, target.reference.IsLinked around.config) :
    (Value.sub text (arguments.getD [] ++ added)).IsLinked around.config := by
  rw [Value.sub_eq_template, Value.isLinked_template_iff]
  intro map hmap
  obtain rfl := Value.eq_of_ifEmpty hmap
  refine Filling.map_append (fun h => (Value.isLinked_iff.1 h).2)
    (fun _ hordinary hparts => Value.isLinked_of_not_isReserved hordinary hparts) ?_ hadded hfree
  cases arguments with
  | none => exact Value.isLinked_of_not_isReserved rfl (by simp [Value.children])
  | some declared => exact hdeclared declared rfl

/-- What comes into the place of a form is linked, if the notes stay clean. -/
theorem isLinked_settle (hmark : around.config.preserveMarker ≠ "")
    (hfree : ∀ target ∈ around.free, target.reference.IsLinked around.config) {form : Form}
    (hform : Form.recognize? node = .ok (some form))
    (hparts : ∀ child ∈ node.children, child.2.IsLinked around.config)
    (h : around.settle source path node form outcome = (w, later)) (hclean : later.IsClean) :
    w.IsLinked around.config := by
  -- A name that stays in place would have left a note, unless it is exempt.
  have hexempt : ∀ {key meaning}, around.meaning key = meaning →
      (∀ target, meaning ≠ .free target) → (node, outcome.leave meaning key path) = (w, later) →
      form.target? = some key → w.IsLinked around.config := by
    intro key meaning hmeaning hnot hresult htarget
    simp only [Prod.mk.injEq] at hresult
    obtain ⟨rfl, rfl⟩ := hresult
    refine Value.isLinked_iff.2 ⟨fun other key' hother htarget' => ?_, hparts⟩
    rw [hform] at hother
    simp only [Except.ok.injEq, Option.some.injEq] at hother
    rw [← hother, htarget, Option.some.injEq] at htarget'
    subst htarget'
    by_contra hkey
    have hopen : meaning.isOpen = true := by
      cases meaning with
      | exempt => exact absurd (meaning_eq_exempt_iff.1 hmeaning) hkey
      | free target => exact absurd rfl (hnot target)
      | bound => rfl
      | missing => rfl
    have hmem : key ∈ (outcome.leave meaning key path).unresolved :=
      Outcome.mem_unresolved_leave.2 (Or.inr ⟨hopen, rfl⟩)
    rw [hclean.1] at hmem
    simp at hmem
  cases form with
  | reference key =>
      simp only [settle, reference] at h
      cases hmeaning : around.meaning key with
      | free target =>
          rw [hmeaning] at h
          simp only [Prod.mk.injEq] at h
          exact h.1 ▸ hfree target (Entity.mem_of_find? (meaning_eq_free_iff.1 hmeaning).2)
      | _ => exact hexempt hmeaning (by simp) (by rwa [hmeaning] at h) rfl
  | attributeOf key attr =>
      simp only [settle, attributeOf] at h
      cases hmeaning : around.meaning key with
      | free target =>
          rw [hmeaning] at h
          simp only at h
          split at h
          · simp only [Prod.mk.injEq] at h
            exact h.1 ▸ Value.isLinked_getAtt (Config.isExempt_resourceName hmark target)
          · -- A refused attribute is reported.
            simp only [Prod.mk.injEq] at h
            exact absurd (h.2 ▸ hclean) (Outcome.not_isClean_refuse outcome _)
      | _ => exact hexempt hmeaning (by simp) (by rwa [hmeaning] at h) rfl
  | substitution pattern arguments =>
      obtain ⟨text, filling, hfill, -, hresult⟩ :=
        substitution_cases around source path node pattern arguments outcome
      simp only [settle] at h
      rw [h] at hresult
      have hnode : node.IsLinked around.config := by
        refine Value.isLinked_of_children (fun other hother => ?_) hparts
        rw [hform] at hother
        simp only [Except.ok.injEq, Option.some.injEq] at hother
        subst hother
        rfl
      rcases hresult with ⟨-, -, rfl⟩ | ⟨-, rfl⟩ | ⟨-, rfl⟩
      · exact Value.isLinked_scalar _
      · obtain rfl := Form.recognize?_eq_substitution_iff.1 hform
        have hgrows := growsTo_fill around source path pattern (.start arguments outcome)
        rw [hfill] at hgrows
        obtain ⟨added, hadded, hall⟩ := hgrows.arguments
        rw [hadded]
        exact isLinked_sub (Value.isLinked_template_iff.1 hnode) hall hfree
      · exact hnode

/-- A pass with clean notes leaves a linked value behind. -/
theorem isLinked_of_rewrites (hmark : around.config.preserveMarker ≠ "")
    (hfree : ∀ target ∈ around.free, target.reference.IsLinked around.config)
    (h : v.Rewrites (around.rule source) path outcome w later) (hclean : later.IsClean) :
    w.IsLinked around.config := by
  refine Value.rewrites_induction
    (Q := fun _ _ _ w later => later.IsClean → w.IsLinked around.config) ?scalar ?node h hclean
  case scalar =>
    intro _ s _ _
    exact Value.isLinked_scalar s
  case node =>
    -- Notes only grow, so they were clean when each of the parts had been passed over.
    intro path v notes parts between w later hv hthread hrule hclean
    have hparts : ∀ child ∈ (v.withChildren parts).children, child.2.IsLinked around.config := by
      rw [Value.children_withChildren hthread.keys_eq]
      intro child hchild
      obtain ⟨x, n, m, -, ⟨-, hlinked⟩, -, hm⟩ :=
        hthread.exists_of_mem_right (fun _ hstep => growsTo_rewrites hstep.1) hchild
      exact hlinked ((trans_of (Outcome.GrowsTo around) hm (growsTo_rule hrule)).isClean hclean)
    rcases Rule.ofForms_eq_ok hrule with ⟨hordinary, rfl, -⟩ | ⟨form, hform, hsettle⟩
    · exact Value.isLinked_of_children (fun form hform => by simp [hordinary] at hform) hparts
    · exact isLinked_settle hmark hfree hform hparts hsettle hclean

end Surroundings

namespace Resolver

variable {config : Config} {catalog : Catalog} {resolver next : Resolver} {n : Nat}

/-! ## The invariant -/

/-- Unless something was reported already, the references of the free entities are linked. -/
structure FreeLinked (config : Config) (resolver : Resolver) : Prop where
  config_eq : resolver.config = config
  linked : resolver.diagnostics = [] → ∀ entity ∈ resolver.free, entity.reference.IsLinked config

theorem freeLinked_start {graph : ModuleGraph} {partition : Partition}
    (h : graph.partition = .ok partition) : FreeLinked config (start config catalog partition) := by
  refine ⟨rfl, ?_⟩
  intro _ entity hentity
  exact Value.isLinked_of_classify (classify_of_start h hentity)

/-- While nothing is on record, an entity only gets free when a pass over its reference ends with
clean notes. -/
theorem isClean_of_mem_free_step (hstep : resolver.step = (next, .ok n))
    (hdiagnostics : next.diagnostics = []) {entity : Entity} (hentity : entity ∈ next.free) :
    entity ∈ resolver.free ∨ ∃ pending ∈ resolver.waiting, ∃ value outcome,
      resolver.surroundings.apply pending.entity.fullName pending.entity.reference =
        .ok (value, outcome) ∧
      outcome.IsClean ∧ entity = pending.entity.withReference value := by
  refine (of_mem_free_step hstep hentity).imp_right ?_
  rintro ⟨pending, hpending, value, outcome, happly, hresolved, rfl⟩
  have hinvalid := invalid_subset_diagnostics_step hstep hpending happly hresolved
  rw [hdiagnostics, List.subset_nil] at hinvalid
  exact ⟨pending, hpending, value, outcome, happly,
    ⟨Outcome.isResolved_iff.1 hresolved, hinvalid⟩, rfl⟩

theorem diagnostics_eq_nil_of_step (hstep : resolver.step = (next, .ok n))
    (hdiagnostics : next.diagnostics = []) : resolver.diagnostics = [] :=
  List.prefix_nil.1 (hdiagnostics ▸ diagnostics_prefix_step hstep)

theorem freeLinked_step (hmark : config.preserveMarker ≠ "") (hinv : FreeLinked config resolver)
    (hstep : resolver.step = (next, .ok n)) : FreeLinked config next := by
  refine ⟨?config, ?linked⟩
  case config =>
    rw [(step_eq_ok hstep).2.2]
    exact hinv.config_eq
  case linked =>
    intro hdiagnostics entity hentity
    have hfree := hinv.linked (diagnostics_eq_nil_of_step hstep hdiagnostics)
    rcases isClean_of_mem_free_step hstep hdiagnostics hentity with
      hentity | ⟨pending, -, value, outcome, happly, hclean, rfl⟩
    · exact hfree entity hentity
    · have hconfig : resolver.surroundings.config = config := hinv.config_eq
      have hlinked := Surroundings.isLinked_of_rewrites (hconfig ▸ hmark)
        (fun target htarget => hconfig ▸ hfree target htarget)
        (Surroundings.apply_eq_ok_iff.1 happly) hclean
      exact hconfig ▸ hlinked

/-- If nothing was found in the declaration of a free entity while nothing was bound, then the pass
over it has ended with clean notes. -/
theorem isClean_linkFree {around : Surroundings} {origin entity : Entity} {declared : Value}
    (hbound : around.bound = []) (horigin : origin ∈ around.free)
    (h : linkFree around origin = .ok (entity, [])) (hdeclared : origin.definition = some declared) :
    ∃ value outcome, around.apply origin.fullName declared = .ok (value, outcome) ∧
      outcome.IsClean ∧ entity.definition = some value := by
  rcases linkFree_eq_ok horigin h with ⟨hnone, -⟩ | ⟨_, value, outcome, hsome, happly, rfl, hown⟩
  · simp [hnone] at hdeclared
  · obtain rfl := Option.some.inj (hsome.symm.trans hdeclared)
    obtain ⟨hmissing, hinvalid⟩ := List.append_eq_nil_iff.1 hown.symm
    have hnobound : outcome.bound = [] := by
      rw [List.eq_nil_iff_forall_not_mem]
      intro u hu
      have hrewrites := Surroundings.apply_eq_ok_iff.1 happly
      have hknown := (Surroundings.growsTo_rewrites hrewrites).known u hu
      simp [hbound] at hknown
    refine ⟨value, outcome, happly, ⟨?_, hinvalid⟩, rfl⟩
    simp [Outcome.unresolved, hnobound, List.map_eq_nil_iff.1 hmissing]

/-- If nothing was found in the declarations, then a linked declaration is what a pass over the
declared one has left behind, with clean notes. -/
theorem exists_declared_linkFree {around : Surroundings} {origin entity : Entity}
    {definition : Value} (hbound : around.bound = []) (horigin : origin ∈ around.free)
    (h : linkFree around origin = .ok (entity, [])) (hsome : entity.definition = some definition) :
    ∃ declared outcome, origin.definition = some declared ∧
      around.apply origin.fullName declared = .ok (definition, outcome) ∧ outcome.IsClean := by
  cases hdeclared : origin.definition with
  | none =>
      rcases linkFree_eq_ok horigin h with ⟨-, rfl⟩ | ⟨_, _, _, hother, -⟩
      · simp [hdeclared] at hsome
      · simp [hdeclared] at hother
  | some declared =>
      obtain ⟨value, outcome, happly, hclean, hvalue⟩ :=
        isClean_linkFree hbound horigin h hdeclared
      obtain rfl := Option.some.inj (hvalue.symm.trans hsome)
      exact ⟨declared, outcome, rfl, happly, hclean⟩

/-- The declaration of a free entity is linked, if nothing was found in it. -/
theorem isLinked_linkFree {around : Surroundings} {origin entity : Entity} {definition : Value}
    (hmark : around.config.preserveMarker ≠ "")
    (hfree : ∀ target ∈ around.free, target.reference.IsLinked around.config)
    (hbound : around.bound = []) (horigin : origin ∈ around.free)
    (h : linkFree around origin = .ok (entity, [])) (hsome : entity.definition = some definition) :
    definition.IsLinked around.config := by
  obtain ⟨declared, outcome, -, happly, hclean⟩ := exists_declared_linkFree hbound horigin h hsome
  have hrewrites := Surroundings.apply_eq_ok_iff.1 happly
  exact Surroundings.isLinked_of_rewrites hmark hfree hrewrites hclean

/-- In a module that resolution hands back, no reference and no attribute asks for a name that is
not exempt, neither in a reference nor in a declaration. -/
theorem isLinked_of_resolve {graph resolved : ModuleGraph} {partition : Partition} {stats : Stats}
    (hmark : config.preserveMarker ≠ "") (hpartition : graph.partition = .ok partition)
    (h : resolve config catalog partition = .ok (resolved, stats)) :
    ∀ entity ∈ resolved.entities, entity.reference.IsLinked config ∧
      ∀ definition, entity.definition = some definition → definition.IsLinked config := by
  obtain ⟨final, hinv, hend⟩ := resolve_invariant (freeLinked_step hmark)
    (freeLinked_start hpartition) h
  have hfree := hinv.linked hend.diagnostics
  have hconfig : final.surroundings.config = config := hinv.config_eq
  intro entity hentity
  obtain ⟨origin, horigin, hlink⟩ := hend.exists_origin hentity
  refine ⟨(eq_of_linkFree hlink).2 ▸ hfree origin horigin, ?_⟩
  intro definition hsome
  have hdefinition := isLinked_linkFree (hconfig ▸ hmark)
    (fun target htarget => hconfig ▸ hfree target htarget) hend.bound_surroundings horigin hlink
    hsome
  exact hconfig ▸ hdefinition

/-- A resource with a declaration that refers to a value and to the resource itself. -/
def relay : ModuleGraph where
  name := "Main"
  entities := [
    { fullName := "R"
      kind := .resource
      reference := .ref "@R"
      definition := some (.list [.ref "B", .getAtt "R" "Arn"])
      typeName := "Queue" },
    .value "B" (.list [.ref "A"]),
    .value "A" (.string "a")]

/-- The free and bound entities of `relay`. -/
def relayPartition : Partition where
  name := "Main"
  order := ["R", "B", "A"]
  free := [.value "A" (.string "a")]
  bound := relay.entities.take 2

/-- What resolution hands back for `relay`. -/
def relayResolved : ModuleGraph where
  name := "Main"
  entities := [
    { fullName := "R"
      kind := .resource
      reference := .ref "@R"
      definition := some (.list [.list [.string "a"], .getAtt "@R" "Arn"])
      typeName := "Queue" },
    .value "B" (.list [.string "a"]),
    .value "A" (.string "a")]

theorem isLinked_of_resolve_relay :
    relay.partition = .ok relayPartition ∧
      resolve {} .permissive relayPartition = .ok (relayResolved, ⟨1, 1, 2⟩) ∧
      ∀ entity ∈ relayResolved.entities, entity.reference.IsLinked {} ∧
        ∀ definition, entity.definition = some definition → definition.IsLinked {} := by
  have hpartition : relay.partition = .ok relayPartition := by rfl
  have hresolve : resolve {} .permissive relayPartition = .ok (relayResolved, ⟨1, 1, 2⟩) := by
    have hsome : (resolve {} .permissive relayPartition).toOption =
      some (relayResolved, ⟨1, 1, 2⟩) := by decide +kernel
    exact eq_ok_of_toOption hsome
  exact ⟨hpartition, hresolve, isLinked_of_resolve (by decide) hpartition hresolve⟩

end Resolver

end StackLinker
