import StackLinker.Proofs.Dependency.Waiting
import StackLinker.Proofs.Resolution.Accounting
import StackLinker.Proofs.Resolution.Settled

/-!
# Promotion is sound

A resolution that succeeds has seen every dependency that is declared: each name that a reference
uses belongs to an entity, and no entity depends on itself (`closed_and_acyclic_of_resolve`).

The free entities stand in the order in which they became free.  The argument is that an entity
becomes free only when all names it uses are free already, so that this order respects the
dependencies (`IsOrdered`).  For the entities that are still bound the invariant says that each name
they use is free, or that the present state of their reference waits for it (`Sound`).

This needs the conditions under which a pass loses no name: declared references are plain, and the
texts that are put into patterns (`ModuleGraph.IsInserted`) do not change how the patterns around
them are read.  Without them the statement is false, and `loses_dependencies` shows one module for
each of them.
-/

namespace StackLinker

namespace ModuleGraph

open Value

mutual

/-- The names that placeholders may ask for while a module is resolved, and its entities become what
`resolved` says. -/
inductive IsAsked (config : Config) (graph resolved : ModuleGraph) : String → Prop
  | declared {entity : Entity} {pattern name : String} {arguments : Option (Fields Value)}
      (hentity : entity ∈ graph.entities)
      (hnode : Value.template pattern arguments ∈ entity.reference.nodes)
      (hname : name ∈ Pattern.names pattern) : IsAsked config graph resolved name
  | read {text name : String} (h : IsInserted config graph resolved text)
      (hname : name ∈ Pattern.names text) : IsAsked config graph resolved name

/-- The texts that may be put into patterns: the texts of entities that are asked for, and the
written placeholders of references, attributes and added arguments. -/
inductive IsInserted (config : Config) (graph resolved : ModuleGraph) : String → Prop
  | value {entity : Entity} {text : String} (h : IsAsked config graph resolved entity.fullName)
      (hentity : entity ∈ resolved.entities) (htext : entity.reference.inserted? = some text) :
      IsInserted config graph resolved text
  | numbered (number : Nat) : IsInserted config graph resolved
      (Placeholder.mk (config.syntheticMarker ++ Nat.repr number) none).text
  | resource {entity : Entity} {attr : String} (hentity : entity ∈ resolved.entities)
      (hbrace : '}' ∉ attr.toList) : IsInserted config graph resolved
      (Placeholder.mk (entity.resourceName config) (some attr)).text

end

/-- The conditions under which texts that are put into patterns leave the rest of them readable. -/
structure IsReadable (config : Config) (graph resolved : ModuleGraph) : Prop where
  /-- Anything can follow the texts. -/
  closed : ∀ text, IsInserted config graph resolved text → Pattern.isClosed text = true
  /-- No placeholder stands behind a literal dollar sign, or the texts are neither empty nor start
  with a brace. -/
  join : ((∀ entity ∈ graph.entities, ∀ pattern arguments,
        Value.template pattern arguments ∈ entity.reference.nodes →
          Pattern.isSpaced (Pattern.pieces pattern) = true) ∧
      ∀ text, IsInserted config graph resolved text →
        Pattern.isSpaced (Pattern.pieces text) = true) ∨
    ∀ text, IsInserted config graph resolved text → Pattern.isSolid text.toList = true

/-- What is put into the patterns of a module while it is resolved. -/
def insertions (config : Config) (graph resolved : ModuleGraph) : Splicing where
  names := IsAsked config graph resolved
  solid := ∀ text, IsInserted config graph resolved text → Pattern.isSolid text.toList = true

variable {config : Config} {graph resolved : ModuleGraph}

theorem IsReadable.admits (h : IsReadable config graph resolved) {text : String}
    (htext : IsInserted config graph resolved text) :
    (insertions config graph resolved).Admits text where
  names _ hname := .read htext hname
  join := h.join.imp_left fun hspaced => hspaced.2 text htext
  closed := h.closed text htext
  solid hsolid := hsolid text htext

theorem IsReadable.covers (h : IsReadable config graph resolved) {entity : Entity}
    (hentity : entity ∈ graph.entities) {pattern : String} {arguments : Option (Fields Value)}
    (hnode : Value.template pattern arguments ∈ entity.reference.nodes) :
    (insertions config graph resolved).Covers pattern where
  names _ hname := .declared hentity hnode hname
  join := h.join.imp_left fun hspaced => hspaced.1 entity hentity pattern arguments hnode

/-- Texts that end outside an opening and that nothing in front of them can change leave every
pattern readable. -/
theorem isReadable_of_inserted (h : ∀ entity ∈ resolved.entities,
    entity.reference.inserted?.all (fun text =>
      Pattern.isClosed text && Pattern.isSolid text.toList) = true) :
    IsReadable config graph resolved := by
  have hvalue : ∀ entity ∈ resolved.entities, ∀ text, entity.reference.inserted? = some text →
      Pattern.isClosed text = true ∧ Pattern.isSolid text.toList = true := by
    intro entity hentity text htext
    simpa [htext] using h entity hentity
  refine ⟨?closed, Or.inr ?solid⟩
  case closed =>
    intro text htext
    cases htext with
    | value _ hentity htext => exact (hvalue _ hentity _ htext).1
    | numbered => exact Pattern.isClosed_text _
    | resource => exact Pattern.isClosed_text _
  case solid =>
    intro text htext
    cases htext with
    | value _ hentity htext => exact (hvalue _ hentity _ htext).2
    | numbered => exact Pattern.isSolid_text _
    | resource => exact Pattern.isSolid_text _

/-- What is put into patterns on behalf of entities that become what `resolved` says is safe. -/
theorem IsReadable.safeTexts (h : IsReadable config graph resolved) {free : List Entity}
    (hfree : ∀ origin ∈ free, ∃ entity ∈ resolved.entities,
      entity.fullName = origin.fullName ∧ entity.reference = origin.reference) :
    SafeTexts config (insertions config graph resolved) free := by
  refine ⟨?values, fun number => h.admits (.numbered number), ?resources⟩
  case values =>
    intro target htarget hasked text htext
    obtain ⟨entity, hentity, hname, hreference⟩ := hfree target htarget
    exact h.admits (.value (hname ▸ hasked) hentity (hreference ▸ htext))
  case resources =>
    intro target htarget attr hbrace
    obtain ⟨entity, hentity, hname, -⟩ := hfree target htarget
    have hresource : entity.resourceName config = target.resourceName config := by
      rw [Entity.resourceName, Entity.logicalId, hname]
      rfl
    exact hresource ▸ h.admits (.resource hentity hbrace)

end ModuleGraph

namespace Resolver

open Value

variable {config : Config} {splicing : Splicing} {catalog : Catalog} {graph : ModuleGraph}
  {resolver next : Resolver} {n : Nat}

/-- Every entity stands behind the entities it depends on. -/
def IsOrdered (config : Config) (graph : ModuleGraph) (free : List Entity) : Prop :=
  ∀ before entity after, free = before ++ entity :: after →
    ∀ other, graph.DependsOn config entity.fullName other → other ∈ Entity.names before

theorem isOrdered_append {free more : List Entity} (hfree : IsOrdered config graph free)
    (hmore : ∀ entity ∈ more, ∀ other, graph.DependsOn config entity.fullName other →
      other ∈ Entity.names free) : IsOrdered config graph (free ++ more) := by
  intro before entity after hsplit other hdepends
  rcases List.append_eq_append_iff.1 hsplit with ⟨rest, rfl, hlater⟩ | ⟨rest, rfl, hlater⟩
  · have hentity : entity ∈ more := by
      rw [hlater]
      simp
    rw [Entity.names_append]
    exact List.mem_append_left _ (hmore entity hentity other hdepends)
  · cases rest with
    | nil =>
        have hentity : entity ∈ more := by
          rw [← show entity :: after = more from hlater]
          exact List.mem_cons_self
        simpa using hmore entity hentity other hdepends
    | cons first rest =>
        simp only [List.cons_append, List.cons.injEq] at hlater
        obtain ⟨rfl, -⟩ := hlater
        exact hfree before entity rest rfl other hdepends

/-- Entities that stand in this way, and that are all of the module, show that its dependencies are
closed and acyclic. -/
theorem IsOrdered.closed_and_acyclic {free : List Entity} (h : IsOrdered config graph free)
    (hperm : (Entity.names free).Perm graph.names) :
    graph.IsClosed config ∧ graph.IsAcyclic config := by
  refine ModuleGraph.closed_and_acyclic_of_ordered hperm ?_
  intro before name after hsplit other hdepends
  obtain ⟨front, back, hfree, rfl, hback⟩ := List.map_eq_append_iff.1 hsplit
  obtain ⟨entity, rest, rfl, rfl, -⟩ := List.map_eq_cons_iff.1 hback
  exact h front entity rest hfree other hdepends

/-- What holds of a name if it holds of the names it depends on, holds of all entities. -/
theorem IsOrdered.induction {P : String → Prop} {free : List Entity}
    (h : IsOrdered config graph free)
    (hstep : ∀ entity ∈ free,
      (∀ other, graph.DependsOn config entity.fullName other → P other) → P entity.fullName) :
    ∀ name ∈ Entity.names free, P name := by
  -- The entities are taken one by one, in their order.
  suffices hfront : ∀ front back, free = front ++ back → ∀ name ∈ Entity.names front, P name from
    hfront free [] (List.append_nil free).symm
  intro front
  induction front using List.reverseRecOn with
  | nil => simp
  | append_singleton front entity ih =>
      intro back hsplit name hname
      rw [List.append_assoc, List.singleton_append] at hsplit
      have hbefore := ih (entity :: back) hsplit
      rcases List.mem_append.1 (Entity.names_append front [entity] ▸ hname) with hname | hname
      · exact hbefore name hname
      · obtain rfl : name = entity.fullName := by simpa using hname
        exact hstep entity (by simp [hsplit]) fun other hdepends =>
          hbefore other (h front entity back hsplit other hdepends)

/-- Every name that a bound entity uses is free or is waited for. -/
def IsTracked (config : Config) (splicing : Splicing) (graph : ModuleGraph) (resolver : Resolver) :
    Prop :=
  ∀ pending ∈ resolver.waiting, ∀ name, graph.DependsOn config pending.name name →
    name ∈ Entity.names resolver.free ∨ Waits config splicing name pending.entity.reference

/-- What the steps of a resolver preserve, as long as the texts of free entities are safe. -/
structure Sound (config : Config) (splicing : Splicing) (graph : ModuleGraph)
    (resolver : Resolver) : Prop where
  config_eq : resolver.config = config
  kept : ∃ rounds, Kept graph rounds resolver
  tracked : SafeTexts config splicing resolver.free → IsTracked config splicing graph resolver
  ordered : SafeTexts config splicing resolver.free → IsOrdered config graph resolver.free

theorem mem_uses_of_dependsOn (hnodup : graph.names.Nodup) {entity : Entity}
    (hentity : entity ∈ graph.entities) {name : String}
    (h : graph.DependsOn config entity.fullName name) : name ∈ entity.reference.uses config := by
  obtain ⟨other, hother, hname, huses⟩ := h
  rwa [List.inj_on_of_nodup_map hnodup hother hentity hname] at huses

theorem not_isExempt_of_dependsOn {a name : String} (h : graph.DependsOn config a name) :
    config.isExempt name = false := by
  obtain ⟨entity, -, -, huses⟩ := h
  exact not_isExempt_of_mem_uses huses

theorem sound_start {partition : Partition} (hnodup : graph.names.Nodup)
    (hplain : ∀ entity ∈ graph.entities, entity.reference.IsPlain config)
    (hcovers : ∀ entity ∈ graph.entities, ∀ pattern arguments,
      template pattern arguments ∈ entity.reference.nodes → splicing.Covers pattern)
    (h : graph.partition = .ok partition) :
    Sound config splicing graph (start config catalog partition) := by
  obtain ⟨-, -, hfree, hbound⟩ := ModuleGraph.partition_eq_ok h
  refine ⟨rfl, ⟨[], kept_start h config catalog⟩, ?tracked, ?ordered⟩
  case tracked =>
    -- A declared reference waits for all names it uses.
    intro _ pending hpending name hdepends
    obtain ⟨entity, hentity, rfl⟩ := List.mem_map.1 hpending
    have hmem : entity ∈ graph.entities := by
      rw [hbound] at hentity
      exact List.mem_of_mem_filter hentity
    exact Or.inr (waits_of_mem_uses (hplain entity hmem) (hcovers entity hmem)
      (mem_uses_of_dependsOn hnodup hmem hdepends))
  case ordered =>
    -- What is free by its shape uses nothing.
    intro _ before entity after hsplit other hdepends
    have hentity : entity ∈ graph.entities.filter Entity.isFree := by
      rw [← hfree, show partition.free = before ++ entity :: after from hsplit]
      simp
    obtain ⟨hmem, hisFree⟩ := List.mem_filter.1 hentity
    have huses := mem_uses_of_dependsOn hnodup hmem hdepends
    rw [uses_of_classify (by simpa [Entity.isFree] using hisFree)] at huses
    simp at huses

/-- What a pass over a tracked reference leaves: a name that is not free yet is noted and waited
for. -/
theorem held_of_tracked (hconfig : resolver.config = config)
    (hsafe : SafeTexts config splicing resolver.free)
    (htracked : IsTracked config splicing graph resolver) {pending : Pending}
    (hpending : pending ∈ resolver.waiting) {value : Value} {outcome : Outcome}
    (happly : resolver.surroundings.apply pending.entity.fullName pending.entity.reference =
      .ok (value, outcome))
    {name : String} (hdepends : graph.DependsOn config pending.name name) :
    name ∈ Entity.names resolver.free ∨
      Waits config splicing name value ∧ name ∈ outcome.unresolved := by
  subst hconfig
  rcases htracked pending hpending name hdepends with hfree | hwaits
  · exact Or.inl hfree
  · have hexempt : resolver.surroundings.config.isExempt name = false :=
      not_isExempt_of_dependsOn hdepends
    rcases Surroundings.mem_names_or_isOpen hexempt with hfree | hopen
    · exact Or.inl hfree
    · have hheld := Surroundings.held_of_rewrites hsafe hopen hwaits
        (Surroundings.apply_eq_ok_iff.1 happly)
      exact Or.inr ⟨hheld.waits, hheld.noted⟩

theorem sound_step (hsound : Sound config splicing graph resolver)
    (hstep : resolver.step = (next, .ok n)) : Sound config splicing graph next := by
  obtain ⟨rounds, hkept⟩ := hsound.kept
  have hkept' := hkept.step hstep
  obtain ⟨-, -, rfl⟩ := step_eq_ok hstep
  have hsmaller : SafeTexts config splicing (resolver.free ++ resolver.promotions.map (·.1)) →
      SafeTexts config splicing resolver.free := fun h =>
    ⟨fun target htarget => h.values target (List.mem_append_left _ htarget), h.numbered,
      fun target htarget => h.resources target (List.mem_append_left _ htarget)⟩
  refine ⟨hsound.config_eq, hkept', ?tracked, ?ordered⟩
  case tracked =>
    intro hsafe
    have htracked := hsound.tracked (hsmaller hsafe)
    intro kept hmem name hdepends
    obtain ⟨pending, hpending, hkeeps⟩ := List.mem_filterMap.1 hmem
    obtain ⟨value, outcome, happly, -, rfl⟩ := Surroundings.keeps?_eq_some hkeeps
    rcases held_of_tracked hsound.config_eq (hsmaller hsafe) htracked hpending happly hdepends with
      hnow | ⟨hwaits, -⟩
    · exact Or.inl (by simpa using Or.inl hnow)
    · exact Or.inr hwaits
  case ordered =>
    intro hsafe
    -- Nothing was noted in the reference of an entity that is promoted.
    refine isOrdered_append (hsound.ordered (hsmaller hsafe)) ?_
    intro entity hentity other hdepends
    obtain ⟨promoted, hpromoted, rfl⟩ := List.mem_map.1 hentity
    obtain ⟨pending, hpending, hpromotes⟩ := List.mem_filterMap.1 hpromoted
    obtain ⟨value, outcome, happly, hresolved, rfl⟩ := Surroundings.promotes?_eq_some hpromotes
    rcases held_of_tracked hsound.config_eq (hsmaller hsafe) (hsound.tracked (hsmaller hsafe))
      hpending happly hdepends with hnow | ⟨-, hnoted⟩
    · exact hnow
    · rw [Outcome.isResolved_iff.1 hresolved] at hnoted
      simp at hnoted

/-- A resolution that succeeds has seen every declared dependency: the names that are used belong to
entities, and no entity depends on itself. -/
theorem closed_and_acyclic_of_resolve {resolved : ModuleGraph} {partition : Partition}
    {stats : Stats} (hnodup : graph.names.Nodup)
    (hplain : ∀ entity ∈ graph.entities, entity.reference.IsPlain config)
    (hpartition : graph.partition = .ok partition)
    (h : resolve config catalog partition = .ok (resolved, stats))
    (hreadable : graph.IsReadable config resolved) :
    graph.IsClosed config ∧ graph.IsAcyclic config := by
  obtain ⟨final, hsound, hend⟩ :=
    resolve_invariant sound_step (sound_start hnodup hplain
      (fun entity hentity _ _ hnode => hreadable.covers hentity hnode) hpartition) h
  obtain ⟨rounds, hkept⟩ := hsound.kept
  have hperm : (Entity.names final.free).Perm graph.names := by
    have := hkept.perm
    simpa [bound, hend.waiting] using this
  -- Every free entity is in the resolved module, with the text that was put into patterns.
  have horigin : ∀ origin ∈ final.free, ∃ entity ∈ resolved.entities,
      entity.fullName = origin.fullName ∧ entity.reference = origin.reference := by
    have horder : final.partition.order = graph.names := hkept.order
    exact fun origin => hend.exists_resolved (horder ▸ hkept.perm) (horder ▸ hnodup)
  exact (hsound.ordered (hreadable.safeTexts horigin)).closed_and_acyclic hperm

/-- A module in which a text and a list come into one pattern. -/
def mixed : ModuleGraph where
  name := "Main"
  entities := [
    .value "Y" (.sub "${A}: ${L}" []), .value "A" (.string "a"),
    .value "L" (.list [.string "x"])]

/-- The free and bound entities of `mixed`. -/
def mixedPartition : Partition where
  name := "Main"
  order := ["Y", "A", "L"]
  free := mixed.entities.drop 1
  bound := mixed.entities.take 1

/-- What resolution hands back for `mixed`. -/
def mixedResolved : ModuleGraph where
  name := "Main"
  entities := .value "Y" (.sub "a: ${P0}" [("P0", .list [.string "x"])]) :: mixed.entities.drop 1

theorem closed_and_acyclic_of_resolve_mixed :
    mixed.names.Nodup ∧ (∀ entity ∈ mixed.entities, entity.reference.IsPlain {}) ∧
      mixed.partition = .ok mixedPartition ∧
      resolve {} .permissive mixedPartition = .ok (mixedResolved, ⟨2, 1, 1⟩) ∧
      mixed.IsReadable {} mixedResolved ∧ mixed.IsClosed {} ∧ mixed.IsAcyclic {} := by
  have hnodup : mixed.names.Nodup := by decide
  have hplain : ∀ entity ∈ mixed.entities, entity.reference.IsPlain {} := by
    have hlooks : ∀ entity ∈ mixed.entities, entity.reference.looksPlain {} = true := by
      decide +kernel
    exact fun entity hentity => isPlain_of_looksPlain (hlooks entity hentity)
  have hpartition : mixed.partition = .ok mixedPartition := by rfl
  have hresolve : resolve {} .permissive mixedPartition = .ok (mixedResolved, ⟨2, 1, 1⟩) := by
    have hsome : (resolve {} .permissive mixedPartition).toOption =
      some (mixedResolved, ⟨2, 1, 1⟩) := by decide +kernel
    exact eq_ok_of_toOption hsome
  have hreadable : mixed.IsReadable {} mixedResolved :=
    ModuleGraph.isReadable_of_inserted (by decide +kernel)
  exact ⟨hnodup, hplain, hpartition, hresolve, hreadable,
    closed_and_acyclic_of_resolve hnodup hplain hpartition hresolve hreadable⟩

/-! ## The conditions are needed -/

/-- A placeholder with the name of an added argument, in an entity that waits for itself. -/
def captured : ModuleGraph where
  name := "Main"
  entities := [.value "L" (.list [.string "x"]), .value "P0" (.sub "${L}${P0}" [])]

/-- An argument map that is a reference to nothing. -/
def replaced : ModuleGraph where
  name := "Main"
  entities := [
    .value "L" (.list [.string "x"]), .value "Z" (.map [("a", .string "z")]),
    .value "Y" (.sub "${L}" [("Ref", .string "B")])]

/-- A text that ends inside an opening, in front of a placeholder. -/
def opened : ModuleGraph where
  name := "Main"
  entities := [
    .value "A" (.string "$\x7b!"), .value "Z" (.map [("a", .string "z")]),
    .value "Y" (.sub "${A}${B}" [])]

/-- A text that makes an opening of the dollar sign in front of it. -/
def joined : ModuleGraph where
  name := "Main"
  entities := [
    .value "A" (.string "\x7b!"), .value "Z" (.map [("a", .string "z")]),
    .value "Y" (.sub "$${A}${B}" [])]

/-- Whether resolution with the default settings hands the module back. -/
def succeeds (graph : ModuleGraph) : Bool :=
  (graph.partition.toOption.bind fun partition =>
    (resolve {} .permissive partition).toOption).isSome

/-- Modules that resolution hands back although a name that is used belongs to no entity, or an
entity depends on itself. -/
theorem loses_dependencies :
    (succeeds captured = true ∧ ¬ captured.IsAcyclic {}) ∧
      (succeeds replaced = true ∧ ¬ replaced.IsClosed {}) ∧
      (succeeds opened = true ∧ ¬ opened.IsClosed {}) ∧
      (succeeds joined = true ∧ ¬ joined.IsClosed {}) := by
  have hcaptured : captured.DependsOn {} "P0" "P0" :=
    ⟨_, List.mem_cons_of_mem _ List.mem_cons_self, rfl, by decide +kernel⟩
  have hreplaced : replaced.DependsOn {} "Y" "B" :=
    ⟨_, List.mem_cons_of_mem _ (List.mem_cons_of_mem _ List.mem_cons_self), rfl,
      by decide +kernel⟩
  have hopened : opened.DependsOn {} "Y" "B" :=
    ⟨_, List.mem_cons_of_mem _ (List.mem_cons_of_mem _ List.mem_cons_self), rfl,
      by decide +kernel⟩
  have hjoined : joined.DependsOn {} "Y" "B" :=
    ⟨_, List.mem_cons_of_mem _ (List.mem_cons_of_mem _ List.mem_cons_self), rfl,
      by decide +kernel⟩
  refine ⟨⟨by decide +kernel, fun hacyclic => ?_⟩, ⟨by decide +kernel, fun hclosed => ?_⟩,
    ⟨by decide +kernel, fun hclosed => ?_⟩, ⟨by decide +kernel, fun hclosed => ?_⟩⟩
  · exact hacyclic "P0" (Relation.TransGen.single hcaptured)
  · exact absurd (hclosed _ _ hreplaced) (by decide)
  · exact absurd (hclosed _ _ hopened) (by decide)
  · exact absurd (hclosed _ _ hjoined) (by decide)

end Resolver

end StackLinker
