import StackLinker.Proofs.Resolution.Linked
import StackLinker.Proofs.Resolution.Reordering
import StackLinker.Proofs.Substitution.Granting

/-!
# Addresses

Every entity can be reached under its full name, unless the name is exempt: a reference to it
receives its resolved reference, and a pattern that is nothing but a placeholder for it receives the
text of its resolved scalar (`addressed_of_resolve`).

Both kinds of readers are treated alike.  A reader waits for a name (`Value.Awaits`): a pass leaves
it alone until the entity is free, and the pass that does not makes something of the entity's
reference.  A resolver keeps this of the entities that hold such readers (`Awaiting`), since what is
free stays free and keeps its reference.

Names of which this is not true, and texts that are read as patterns again, are in `misaddressed`.
-/

namespace StackLinker

variable {config : Config} {catalog : Catalog} {key : String} {u : Value}
  {becomes : Value → Value → Prop}

/-- Whether a value waits for a name: a pass leaves it as it is and unresolved, or it makes of it
what becomes of the reference of the entity with the name, which is free then. -/
def Value.Awaits (config : Config) (key : String) (becomes : Value → Value → Prop) (u : Value) :
    Prop :=
  ∀ (around : Surroundings) (source : String) (w : Value) (outcome : Outcome),
    around.config = config → around.apply source u = .ok (w, outcome) →
    (w = u ∧ outcome.isResolved = false) ∨
      outcome.isResolved = true ∧
        ∃ target, Entity.find? key around.free = some target ∧ becomes target.reference w

namespace Surroundings

variable {around : Surroundings}

/-- A name that is not exempt is open, or the reference of its entity is granted. -/
theorem grant?_of_name (hexempt : around.config.isExempt key = false) :
    (around.grant? ⟨key, none⟩ = none ∧ (around.meaning key).isOpen = true) ∨
      ∃ target, Entity.find? key around.free = some target ∧
        around.grant? ⟨key, none⟩ = some target.reference := by
  cases hfind : Entity.find? key around.free with
  | none =>
      have hopen := isOpen_meaning_iff.2 ⟨hexempt, hfind⟩
      exact Or.inl ⟨grant?_of_isOpen hopen, hopen⟩
  | some target =>
      refine Or.inr ⟨target, rfl, ?_⟩
      simp only [grant?, meaning_eq_free_iff.2 ⟨hexempt, hfind⟩]

/-- A name that is open is noted where something asks for it. -/
theorem isResolved_note_of_isOpen {source : String} {path : Path} {placeholder : Placeholder}
    {notes : Outcome} (hopen : (around.meaning placeholder.name).isOpen = true) :
    (around.note source path placeholder notes).isResolved = false := by
  have hnoted := mem_unresolved_note hopen source path notes
  rw [← Bool.not_eq_true, Outcome.isResolved_iff]
  exact List.ne_nil_of_mem hnoted

end Surroundings

namespace Value

/-- A reference waits for its name and becomes the reference of the entity. -/
theorem awaits_ref (hexempt : config.isExempt key = false) :
    (Value.ref key).Awaits config key fun r w => w = r := by
  intro around source w outcome hconfig happly
  have hsettle := (rewrites_target_iff (Form.recognize?_ref key) rfl).1
    (Surroundings.apply_eq_ok_iff.1 happly)
  rw [Surroundings.settle_target_eq rfl] at hsettle
  obtain ⟨rfl, rfl⟩ := Prod.mk.inj hsettle
  rcases Surroundings.grant?_of_name (hconfig ▸ hexempt) with
    ⟨hnone, hopen⟩ | ⟨target, hfind, hgrant⟩
  · exact Or.inl ⟨by rw [hnone, Option.getD_none], Surroundings.isResolved_note_of_isOpen hopen⟩
  · refine Or.inr ⟨?_, target, hfind, by rw [hgrant, Option.getD_some]⟩
    rw [Surroundings.note_of_grant hgrant]
    rfl

/-- A pattern that is nothing but a placeholder waits for its name and becomes the text of the
entity, if it has one that is not a pattern itself. -/
theorem awaits_placeholder (hexempt : config.isExempt key = false) (hdot : '.' ∉ key.toList)
    (hbrace : '}' ∉ key.toList) (hescape : key.toList.head? ≠ some '!') :
    (Value.sub (Placeholder.mk key none).text []).Awaits config key fun r w =>
      ∀ s, r = .scalar s → Pattern.hasHoles s.text = false → w = .string s.text := by
  intro around source w outcome hconfig happly
  let pattern := (Placeholder.mk key none).text
  let start := Surroundings.Filling.start none {}
  have hread : Placeholder.ofHole? key.toList = some ⟨key, none⟩ := by
    simp [Placeholder.ofHole?, hescape, Text.cutAt_eq_none_iff.2 hdot]
  have hfill := @Pattern.fill_text _ (around.answer source [source]) ⟨key, none⟩ hbrace hread start
  have hown : key ∉ start.arguments.keys := by simp [start, Surroundings.Filling.start, Fields.keys]
  have hsettle : around.substitution source [source] (.template pattern none) pattern none {} =
      (w, outcome) := by
    have hrewrites := Surroundings.apply_eq_ok_iff.1 happly
    rw [sub_eq_template] at hrewrites
    obtain ⟨done, between, hthread, haction⟩ := (rewrites_template_iff rfl).1 hrewrites
    obtain ⟨-, rfl⟩ := Thread.thread_nil_iff.1 hthread
    exact haction
  rw [Surroundings.substitution_eq hfill] at hsettle
  obtain ⟨rfl, rfl⟩ := Prod.mk.inj hsettle
  rcases Surroundings.grant?_of_name (hconfig ▸ hexempt) with
    ⟨hnone, hopen⟩ | ⟨target, hfind, hgrant⟩
  · rw [Surroundings.answer_of_denied hown hnone]
    have hnoted : (around.note source [source] ⟨key, none⟩ start.outcome).isResolved = false :=
      Surroundings.isResolved_note_of_isOpen hopen
    refine Or.inl ⟨?_, hnoted⟩
    have hholes : Pattern.hasHoles pattern = true := by
      rw [Pattern.hasHoles, @Pattern.pieces_text ⟨key, none⟩ hbrace]
      rfl
    simp [Surroundings.Filling.result, start, Surroundings.Filling.start, hholes, pattern,
      sub_eq_template]
  · rw [Surroundings.answer_of_grant hown hgrant]
    refine Or.inr ⟨?_, target, hfind, ?_⟩
    · rw [Surroundings.outcome_splice]
      rfl
    · intro s hs hplain
      simp [hs, Surroundings.splice, Surroundings.Filling.result, start,
        Surroundings.Filling.start, hplain]

end Value

/-! ## Resolutions -/

namespace Resolver

variable {graph resolved : ModuleGraph} {origin : Entity} {resolver next final : Resolver}
  {n : Nat} {stats : Stats}

/-- What the steps of a resolver preserve of an entity that waits for a name. -/
structure Awaiting (config : Config) (key : String) (becomes : Value → Value → Prop)
    (origin : Entity) (resolver : Resolver) : Prop where
  config_eq : resolver.config = config
  /-- As long as it waits, its reference is the declared one. -/
  bound : ∀ entity ∈ resolver.bound, entity.fullName = origin.fullName →
    entity.reference = origin.reference
  free : ∀ entity ∈ resolver.free, entity.fullName = origin.fullName →
    ∃ target, Entity.find? key resolver.free = some target ∧
      becomes target.reference entity.reference

theorem awaiting_start {partition : Partition} (hnodup : graph.names.Nodup)
    (hpartition : graph.partition = .ok partition) (horigin : origin ∈ graph.entities)
    (hshape : origin.isFree = false) :
    Awaiting config key becomes origin (start config catalog partition) := by
  obtain ⟨-, -, hfree, -⟩ := ModuleGraph.partition_eq_ok hpartition
  have hsame : ∀ entity ∈ graph.entities, entity.fullName = origin.fullName → entity = origin :=
    fun entity hentity => List.inj_on_of_nodup_map hnodup hentity horigin
  refine ⟨rfl, ?bound, ?free⟩
  case bound =>
    intro entity hentity hname
    rw [hsame entity (mem_entities_of_start hpartition (List.mem_append_right _ hentity)) hname]
  case free =>
    intro entity hentity hname
    rw [start, hfree] at hentity
    obtain ⟨hentity, hisFree⟩ := List.mem_filter.1 hentity
    rw [hsame entity hentity hname, hshape] at hisFree
    simp at hisFree

theorem awaiting_step (hawaits : origin.reference.Awaits config key becomes)
    (h : Awaiting config key becomes origin resolver) (hstep : resolver.step = (next, .ok n)) :
    Awaiting config key becomes origin next := by
  have hconfig : resolver.surroundings.config = config := h.config_eq
  refine ⟨?config, ?bound, ?free⟩
  case config =>
    rw [(step_eq_ok hstep).2.2]
    exact h.config_eq
  case bound =>
    intro entity hentity hname
    obtain ⟨kept, hkept, rfl⟩ := List.mem_map.1 hentity
    obtain ⟨pending, hpending, w, outcome, happly, hresolved, rfl⟩ :=
      of_mem_waiting_step hstep hkept
    rw [h.bound pending.entity (List.mem_map_of_mem hpending) hname] at happly
    rcases hawaits _ _ w outcome hconfig happly with ⟨rfl, -⟩ | ⟨hother, -⟩
    · rfl
    · simp [hresolved] at hother
  case free =>
    intro entity hentity hname
    have hstays : ∀ {target}, Entity.find? key resolver.free = some target →
        Entity.find? key next.free = some target := by
      intro target hfind
      rw [free_step hstep, Entity.find?_append, hfind, Option.some_or]
    rcases of_mem_free_step hstep hentity with
      hfree | ⟨pending, hpending, w, outcome, happly, hresolved, rfl⟩
    · obtain ⟨target, hfind, hbecomes⟩ := h.free entity hfree hname
      exact ⟨target, hstays hfind, hbecomes⟩
    · rw [h.bound pending.entity (List.mem_map_of_mem hpending) hname] at happly
      rcases hawaits _ _ w outcome hconfig happly with ⟨-, hother⟩ | ⟨-, target, hfind, hbecomes⟩
      · simp [hresolved] at hother
      · exact ⟨target, hstays hfind, hbecomes⟩

/-- In the module that is handed back, an entity that waited for a name has what becomes of the
reference of the entity with that name. -/
theorem becomes_of_resolve {partition : Partition} (hvalid : graph.Valid)
    (hpartition : graph.partition = .ok partition)
    (h : resolve config catalog partition = .ok (resolved, stats))
    (horigin : origin ∈ graph.entities) (hshape : origin.isFree = false)
    (hawaits : origin.reference.Awaits config key becomes) :
    ∃ target entity, resolved.get? key = some target ∧
      resolved.get? origin.fullName = some entity ∧
      becomes target.reference entity.reference := by
  have hstep : ∀ {resolver next n}, (∃ rounds, Kept graph rounds resolver) ∧
      Awaiting config key becomes origin resolver → resolver.step = (next, .ok n) →
      (∃ rounds, Kept graph rounds next) ∧ Awaiting config key becomes origin next := by
    rintro resolver next n ⟨⟨rounds, hkept⟩, hinv⟩ hstep
    exact ⟨hkept.step hstep, awaiting_step hawaits hinv hstep⟩
  obtain ⟨final, ⟨⟨rounds, hkept⟩, hinv⟩, hend⟩ := resolve_invariant hstep
    ⟨⟨[], kept_start hpartition config catalog⟩,
      awaiting_start hvalid.nodup hpartition horigin hshape⟩ h
  obtain ⟨-, -, value, -, hfree, -⟩ :=
    (hend.forall₂_declared hkept hvalid).exists_of_mem_left horigin
  obtain ⟨source, hfind, hbecomes⟩ := hinv.free _ hfree rfl
  obtain ⟨target, htarget, hsource⟩ :=
    hend.get?_of_mem_free hkept hvalid (Entity.mem_of_find? hfind)
  obtain ⟨entity, hentity, hvalue⟩ := hend.get?_of_mem_free hkept hvalid hfree
  rw [Entity.fullName_of_find? hfind] at htarget
  exact ⟨target, entity, htarget, hentity, by rwa [hsource, hvalue]⟩

end Resolver

namespace ModuleGraph

variable {graph resolved : ModuleGraph} {stats : Stats}

/-- If a module is handed back, every entity whose name is not exempt is found under its name: a
reference to it has become its reference, and if that is a scalar, a pattern that is nothing but a
placeholder for it has become the text of the scalar. -/
theorem addressed_of_resolve (hvalid : graph.Valid)
    (h : graph.resolve config catalog = .ok (resolved, stats)) {entity other : Entity}
    (hentity : entity ∈ graph.entities) (hexempt : config.isExempt entity.fullName = false)
    (hother : other ∈ graph.entities) :
    (other.reference = .ref entity.fullName → ∃ done found,
      resolved.get? entity.fullName = some done ∧ resolved.get? other.fullName = some found ∧
        found.reference = done.reference) ∧
    (other.reference = .sub (Placeholder.mk entity.fullName none).text [] →
      '}' ∉ entity.fullName.toList → entity.fullName.toList.head? ≠ some '!' → ∃ done found,
      resolved.get? entity.fullName = some done ∧ resolved.get? other.fullName = some found ∧
        ∀ s, done.reference = .scalar s → Pattern.hasHoles s.text = false →
          found.reference = .string s.text) := by
  obtain ⟨partition, hpartition, hresolve⟩ := exists_partition_of_resolve h
  have hshape : ∀ entries, other.reference = .map entries → other.isFree = false := by
    intro entries hmap
    simp [Entity.isFree, hmap, Value.classify]
  constructor
  · intro href
    have hawaits := href ▸ Value.awaits_ref hexempt
    exact Resolver.becomes_of_resolve hvalid hpartition hresolve hother (hshape _ href) hawaits
  · intro hsub hbrace hescape
    have hdot : '.' ∉ entity.fullName.toList := by
      have haddressable := hvalid.addressable _ (List.mem_map_of_mem hentity)
      simp only [isAddressable, Bool.and_eq_true] at haddressable
      simpa using haddressable.2
    have hawaits := hsub ▸ Value.awaits_placeholder hexempt hdot hbrace hescape
    exact Resolver.becomes_of_resolve hvalid hpartition hresolve hother (hshape _ hsub) hawaits

/-- A module with a reader of each kind. -/
def directory : ModuleGraph where
  name := "Main"
  entities := [
    .value "X" (.ref "Net::Zone"), .value "Y" (.sub "${Net::Zone}" []),
    .value "Net::Zone" (.sub "z-${Net}" []), .value "Net" (.string "n")]

theorem addressed_of_resolve_directory :
    ∃ result, directory.resolve {} .permissive = .ok result ∧
      (∃ done found, result.1.get? "Net::Zone" = some done ∧ result.1.get? "X" = some found ∧
        found.reference = done.reference) ∧
      ∃ done found, result.1.get? "Net::Zone" = some done ∧ result.1.get? "Y" = some found ∧
        ∀ s, done.reference = .scalar s → Pattern.hasHoles s.text = false →
          found.reference = .string s.text := by
  have hvalid : directory.Valid := ⟨by decide, by decide⟩
  have hsome : (directory.resolve {} .permissive).toOption.isSome = true := by decide +kernel
  obtain ⟨result, hresult⟩ := Option.isSome_iff_exists.1 hsome
  have hresolve := Resolver.eq_ok_of_toOption hresult
  have hzone : Entity.value "Net::Zone" (.sub "z-${Net}" []) ∈ directory.entities := by decide
  have hreader : Entity.value "X" (.ref "Net::Zone") ∈ directory.entities := by decide
  have hpattern : Entity.value "Y" (.sub "${Net::Zone}" []) ∈ directory.entities := by decide
  have hexempt : Config.isExempt {} "Net::Zone" = false := by decide +kernel
  exact ⟨result, hresolve, (addressed_of_resolve hvalid hresolve hzone hexempt hreader).1 rfl,
    (addressed_of_resolve hvalid hresolve hzone hexempt hpattern).2 rfl (by decide) (by decide)⟩

/-- The references that resolution with the default settings ends with. -/
def resolvedReferences (entities : List Entity) : Option (List Value) :=
  let graph : ModuleGraph := ⟨"Main", entities⟩
  (graph.resolve {} .permissive).toOption.map fun result => result.1.entities.map (·.reference)

/-- What is not read as the name of an entity: a name with the preserve marker or in a namespace of
the provider, and in a pattern also a name with a closing brace or behind an exclamation mark.  A
text with a placeholder in it stays a pattern. -/
theorem misaddressed :
    resolvedReferences [.value "@A" (.string "a"), .value "X" (.ref "@A")] =
        some [.string "a", .ref "@A"] ∧
      resolvedReferences [.value "AWS::A" (.string "a"), .value "X" (.ref "AWS::A")] =
        some [.string "a", .ref "AWS::A"] ∧
      resolvedReferences [.value "A" (.string "x"), .value "A\x7dB" (.string "y"),
          .value "Y" (.sub (Placeholder.mk "A\x7dB" none).text [])] =
        some [.string "x", .string "y", .string "xB\x7d"] ∧
      resolvedReferences [.value "!A" (.string "a"),
          .value "Y" (.sub (Placeholder.mk "!A" none).text [])] =
        some [.string "a", .sub "${!A}" []] ∧
      resolvedReferences [.value "A" (.string "${!x}"),
          .value "Y" (.sub (Placeholder.mk "A" none).text [])] =
        some [.string "${!x}", .sub "${!x}" []] := by
  refine ⟨?_, ?_, ?_, ?_, ?_⟩ <;> decide +kernel

end ModuleGraph

end StackLinker
