import StackLinker.Proofs.Linking.ProviderReferences
import StackLinker.Proofs.Resolution.WellFormed

/-!
# Finalization never fails after resolution

Finalization goes over every value once more, and like any traversal it would stop at a null or at a
malformed node.  What resolution hands back has neither (`Resolver.isWellFormed_of_resolve`), and
taking off markers cannot spoil a value on the way: a map stays a map, which is all that a
substitution asks of its arguments (`Config.keepsMaps_bareAction`).

So structural errors come from resolution alone, and a module that is linked had no null in it and
has none in the end (`finalize_of_resolve`).
-/

namespace StackLinker

variable {config : Config} {v w : Value}

/-! ## Values -/

namespace Config

theorem keepsMaps_bareAction (config : Config) : config.bareAction.KeepsMaps := by
  intro path entries form _
  cases form with
  | reference key =>
      simp only [bareAction, bareForm]
      cases config.stripPreserve? key <;> exact ⟨_, rfl⟩
  | attributeOf key attr =>
      simp only [bareAction, bareForm]
      cases config.stripPreserve? key <;> exact ⟨_, rfl⟩
  | substitution pattern arguments =>
      simp only [bareAction, bareForm]
      split <;> exact ⟨_, rfl⟩

theorem keepsWellFormed_bareAction (config : Config) : config.bareAction.KeepsWellFormed := by
  intro path node form _ hform hnode
  cases form with
  | reference key =>
      simp only [bareAction, bareForm]
      cases config.stripPreserve? key with
      | none => exact hnode
      | some bare => rfl
  | attributeOf key attr =>
      simp only [bareAction, bareForm]
      cases config.stripPreserve? key with
      | none => exact hnode
      | some bare => rfl
  | substitution pattern arguments =>
      obtain rfl := Form.recognize?_eq_substitution_iff.1 hform
      simp only [bareAction, bareForm]
      split
      · exact hnode
      · rw [Value.sub_eq_template, Value.isWellFormed_template_iff] at *
        intro map hmap
        obtain rfl := Value.eq_of_ifEmpty hmap
        cases arguments with
        | none => rfl
        | some declared => exact hnode declared rfl

end Config

/-- The finalization of a well-formed value reaches its end. -/
theorem Value.failure_finalize (hv : v.isWellFormed = true) (config : Config) (root : String) :
    (v.finalize config root).failure = none := by
  obtain ⟨w, later, h⟩ := exists_rewrites_of_isWellFormed hv
    (fun _ _ _ => exists_map_of_rewrites config.keepsMaps_bareAction) [root] ()
  exact congrArg Progress.failure h

/-- What finalization leaves behind is well-formed. -/
theorem Value.isWellFormed_of_finalize {path : Path}
    (h : v.Rewrites config.finalizeRule path () w ()) : w.isWellFormed = true :=
  isWellFormed_of_rewrites config.keepsWellFormed_bareAction h

/-! ## Entities -/

namespace Entity

variable {R : Value → Value → Prop} {origin entity done : Entity}

theorem Corresponds.forall_mem_values {P : Value → Prop} (h : Corresponds R origin entity)
    (hR : ∀ {v w}, R v w → P w) : ∀ w ∈ entity.values, P w := by
  refine Entity.forall_mem_values.2 ⟨hR h.reference, fun definition hdefinition => ?_⟩
  obtain ⟨declared, -, hdeclared⟩ := Option.Rel.exists_of_eq_some h.definition hdefinition
  exact hR hdeclared

theorem finalize_of_isWellFormed (h : ∀ v ∈ entity.values, v.isWellFormed = true)
    (config : Config) : ∃ done, entity.finalize config = (done, none) := by
  obtain ⟨hreference, hdefinition⟩ := forall_mem_values.1 h
  have hfailure := Value.failure_finalize hreference config entity.fullName
  cases hsome : entity.definition with
  | none => exact ⟨_, by simp only [finalize, hfailure, hsome]; rfl⟩
  | some definition =>
      have hrest := Value.failure_finalize (hdefinition definition hsome) config entity.fullName
      exact ⟨_, by simp only [finalize, hfailure, hsome, hrest]; rfl⟩

theorem finalizeAll_of_isWellFormed {entities : List Entity}
    (h : ∀ entity ∈ entities, ∀ v ∈ entity.values, v.isWellFormed = true) :
    (finalizeAll config entities).2 = none := by
  induction entities with
  | nil => rfl
  | cons entity rest ih =>
      obtain ⟨done, hdone⟩ := finalize_of_isWellFormed (h entity List.mem_cons_self) config
      simp only [finalizeAll, hdone]
      exact ih fun other hother => h other (List.mem_cons_of_mem _ hother)

/-- Finalized entities are well-formed. -/
theorem isWellFormed_of_finalizeAll {entities finalized : List Entity}
    (h : finalizeAll config entities = (finalized, none)) :
    ∀ done ∈ finalized, ∀ v ∈ done.values, v.isWellFormed = true := by
  intro done hdone
  obtain ⟨entity, -, hfinalize⟩ := (forall₂_of_finalizeAll h).exists_of_mem_right hdone
  exact (corresponds_of_finalize hfinalize).forall_mem_values Value.isWellFormed_of_finalize

end Entity

namespace ModuleGraph

/-- If resolution hands back a module, then its finalization succeeds, and no value in it holds a
null or a malformed node.  If a module is linked, it was declared without nulls, and the linked
module has none. -/
theorem finalize_of_resolve (config : Config) (catalog : Catalog) (graph : ModuleGraph)
    (hvalid : graph.Valid) :
    (∀ partition resolved stats, graph.partition = .ok partition →
      Resolver.resolve config catalog partition = .ok (resolved, stats) →
        (resolved.finalize config).2 = none ∧
        ∀ entity ∈ resolved.entities, ∀ v ∈ entity.values, v.isWellFormed = true) ∧
    ∀ linked, graph.link config catalog = .ok linked →
      (∀ entity ∈ graph.entities, ∀ v ∈ entity.values, .null ∉ v.nodes) ∧
        ∀ entity ∈ linked.graph.entities, ∀ v ∈ entity.values, .null ∉ v.nodes := by
  refine ⟨?resolved, ?linked⟩
  case resolved =>
    intro partition resolved stats hpartition hresolve
    have hwell := Resolver.isWellFormed_of_resolve hpartition hresolve
    exact ⟨Entity.finalizeAll_of_isWellFormed hwell, hwell⟩
  case linked =>
    intro linked hlink
    obtain ⟨partition, resolved, stats, finalized, hpartition, hresolve, hfinalize, ⟨functions,
      hlinked⟩, -⟩ := link_eq_ok hlink
    refine ⟨Resolver.null_notMem_of_resolve hvalid hpartition hresolve, ?_⟩
    rw [hlinked, List.forall_mem_map]
    -- Expanding its scope leaves the values of an entity alone.
    intro done hdone v hv
    exact Value.null_notMem_nodes_of_isWellFormed
      (Entity.isWellFormed_of_finalizeAll hfinalize done hdone v hv)

/-- A module with argument maps that are forms themselves: one receives an argument, the other one
loses a marker. -/
def wrapped : ModuleGraph where
  name := "Main"
  entities := [
    .value "A" (.list [.string "a"]),
    .value "B" (.sub "${A} ${Ref}" [("Ref", .string "@Q")]),
    .value "C" (.list [.sub "${Ref} ${B}" [("Ref", .string "@Q")], .sub "${@Q}" []]),
    { fullName := "Q"
      kind := .resource
      reference := .ref "@Q"
      definition := some (.record { typeName := "Queue" } (.map []) (.map [
        ("Self", .getAtt "Q" "Arn"), ("Name", .sub "${Ref}" [("Ref", .string "@Q")])]))
      typeName := "Queue" }]

theorem finalize_of_resolve_wrapped :
    wrapped.Valid ∧
      (∃ partition resolved stats, wrapped.partition = .ok partition ∧
        Resolver.resolve {} .permissive partition = .ok (resolved, stats) ∧
          (resolved.finalize {}).2 = none ∧
          ∀ entity ∈ resolved.entities, ∀ v ∈ entity.values, v.isWellFormed = true) ∧
      ∃ linked, wrapped.link {} .permissive = .ok linked ∧
        (∀ entity ∈ wrapped.entities, ∀ v ∈ entity.values, .null ∉ v.nodes) ∧
          ∀ entity ∈ linked.graph.entities, ∀ v ∈ entity.values, .null ∉ v.nodes := by
  have hvalid : wrapped.Valid := ⟨by decide, by decide⟩
  have hlinks : (wrapped.link {} .permissive).toOption.isSome = true := by decide +kernel
  obtain ⟨linked, hlinked⟩ := Option.isSome_iff_exists.1 hlinks
  have hlink := Resolver.eq_ok_of_toOption hlinked
  obtain ⟨partition, resolved, stats, -, hpartition, hresolve, -⟩ := link_eq_ok hlink
  obtain ⟨hresolved, hall⟩ := finalize_of_resolve {} .permissive wrapped hvalid
  exact ⟨hvalid, ⟨partition, resolved, stats, hpartition, hresolve,
    hresolved partition resolved stats hpartition hresolve⟩, linked, hlink, hall linked hlink⟩

end ModuleGraph

end StackLinker
