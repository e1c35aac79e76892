import StackLinker.CommandLine.Run
import StackLinker.Proofs.Config.Markers
import StackLinker.Proofs.Form.Shapes
import StackLinker.Proofs.Module.Declaration
import StackLinker.Proofs.Resolution.Settled
import StackLinker.Proofs.Substitution.Answers

/-!
# Entities declared without a value

A resource, function or input that is declared without a value stands for its identifier: its
reference names the identifier with the preserve marker.  Such a name is exempt as long as there is
a preserve marker, or if the identifier itself is a name of the provider (`isExempt_default_iff`).
Then the entity waits for nothing, and the first step promotes it as it is.

Without a preserve marker, which a configuration file may ask for, the identifier is looked up like
any other name (`promoted_at_once_iff`).  An entity whose full name has no separator waits for
itself, and another one may be given the value of an unrelated entity (`default_looked_up`).
-/

namespace StackLinker

variable {config : Config} {catalog : Catalog} {document : ModuleDocument} {graph : ModuleGraph}
  {partition : Partition} {next : Resolver} {n : Nat} {name : String}
  {declaration : EntityDeclaration}

/-- When the reference of an entity without a value is exempt. -/
theorem Config.isExempt_default_iff (entity : Entity) :
    config.isExempt (entity.resourceName config) = true ↔
      config.preserveMarker ≠ "" ∨ config.isIntrinsic (entity.logicalId config) = true := by
  by_cases hmark : config.preserveMarker = ""
  · have hname : entity.resourceName config = entity.logicalId config := by
      rw [Entity.resourceName, hmark, String.empty_append]
    simp [isExempt, stripPreserve?, hname, hmark]
  · exact ⟨fun _ => Or.inl hmark, fun _ => isExempt_resourceName hmark entity⟩

namespace Surroundings

variable {around : Surroundings} {source key : String} {outcome : Outcome}

/-- A pass over a reference looks at nothing but its name. -/
theorem apply_ref (around : Surroundings) (source key : String) :
    around.apply source (.ref key) = .ok (around.reference [source] (.ref key) key {}) :=
  apply_eq_ok_iff.2 ((Value.rewrites_target_iff (Form.recognize?_ref key) rfl).2 rfl)

theorem apply_ref_of_exempt (h : around.config.isExempt key = true) :
    around.apply source (.ref key) = .ok (.ref key, {}) := by
  rw [apply_ref, reference, meaning_eq_exempt_iff.2 h]
  rfl

/-- A reference that stays as it is and waits for nothing is exempt, unless a free entity has it for
its value. -/
theorem isExempt_of_apply_ref (hfree : ∀ target ∈ around.free, target.reference ≠ .ref key)
    (h : around.apply source (.ref key) = .ok (.ref key, outcome))
    (hresolved : outcome.isResolved = true) : around.config.isExempt key = true := by
  rw [apply_ref] at h
  cases hmeaning : around.meaning key with
  | exempt => exact meaning_eq_exempt_iff.1 hmeaning
  | free target =>
      simp only [reference, hmeaning, Except.ok.injEq, Prod.mk.injEq] at h
      exact absurd h.1 (hfree target (mem_free_of_meaning hmeaning))
  | bound =>
      simp only [reference, hmeaning, Except.ok.injEq, Prod.mk.injEq] at h
      simp [← h.2, Outcome.leave, Outcome.isResolved] at hresolved
  | missing =>
      simp only [reference, hmeaning, Except.ok.injEq, Prod.mk.injEq] at h
      simp [← h.2, Outcome.leave, Outcome.isResolved] at hresolved

end Surroundings

/-- What is free by its shape is no reference. -/
theorem Entity.reference_ne_of_isFree {entity : Entity} (h : entity.isFree = true) (key : String) :
    entity.reference ≠ .ref key := by
  intro hreference
  rw [isFree, hreference] at h
  simp [Value.ref, Value.classify] at h

namespace ModuleGraph

/-- What a declaration without a value makes. -/
theorem Declared.exists_default (h : graph.Declared config document)
    (hdeclared : (name, declaration) ∈ document.listing config)
    (hvalue : declaration.value = none) :
    ∃ entity ∈ graph.entities, entity.fullName = name ∧ entity.kind = declaration.kind ∧
      entity.reference = .ref (entity.resourceName config) := by
  obtain ⟨entity, hentity, htoEntity⟩ := h.entities.exists_of_mem_left hdeclared
  have hdeclares := EntityDeclaration.declares_of_toEntity htoEntity
  exact ⟨entity, hentity, hdeclares.fullName, hdeclares.kind, (hdeclares.resource hvalue).2⟩

end ModuleGraph

namespace Resolver

/-- The first step promotes an entity with a reference as it is if and only if the name in the
reference is exempt. -/
theorem mem_promotions_ref_iff (hvalid : graph.Valid) (hpartition : graph.partition = .ok partition)
    {entity : Entity} {key : String} (hentity : entity ∈ graph.entities)
    (hreference : entity.reference = .ref key) :
    entity ∈ (start config catalog partition).promotions.map (·.1) ↔
      config.isExempt key = true := by
  obtain ⟨-, -, hfree, hbound⟩ := ModuleGraph.partition_eq_ok hpartition
  have hshape : entity.isFree = false := by
    rw [← Bool.not_eq_true]
    exact fun h => Entity.reference_ne_of_isFree h key hreference
  constructor
  · intro hmem
    obtain ⟨promoted, hpromoted, rfl⟩ := List.mem_map.1 hmem
    obtain ⟨pending, hpending, hsome⟩ := List.mem_filterMap.1 hpromoted
    obtain ⟨value, outcome, happly, hresolved, rfl⟩ := Surroundings.promotes?_eq_some hsome
    obtain ⟨other, hother, rfl⟩ := List.mem_map.1 hpending
    -- Full names are distinct, so nothing but the entity itself has been promoted to it.
    have hin : other ∈ graph.entities := List.mem_of_mem_filter (hbound ▸ hother)
    have hsame : other.withReference value = other :=
      List.inj_on_of_nodup_map hvalid.nodup hentity hin rfl
    have hvalue : value = .ref key := hreference
    have hown : other.reference = .ref key := hsame ▸ hreference
    have happly : (start config catalog partition).surroundings.apply other.fullName (.ref key) =
        .ok (.ref key, outcome) := by rw [← hown, happly, hown, hvalue]
    refine Surroundings.isExempt_of_apply_ref (fun target htarget => ?_) happly hresolved
    have htarget : target ∈ graph.entities.filter Entity.isFree := hfree ▸ htarget
    exact Entity.reference_ne_of_isFree (List.mem_filter.1 htarget).2 key
  · intro hexempt
    have hwaiting : ({ entity := entity } : Pending) ∈ (start config catalog partition).waiting :=
      List.mem_map_of_mem (hbound ▸ List.mem_filter.2 ⟨hentity, by simp [hshape]⟩)
    have happly : (start config catalog partition).surroundings.apply entity.fullName
        entity.reference = .ok (entity.reference, {}) := by
      rw [hreference]
      exact Surroundings.apply_ref_of_exempt hexempt
    refine List.mem_map.2 ⟨(entity, []), List.mem_filterMap.2 ⟨_, hwaiting, ?_⟩, rfl⟩
    simp [Surroundings.promotes?, happly, Outcome.isResolved, Entity.withReference]

/-- An entity that is declared without a value is promoted by the first step as it is if and only if
there is a preserve marker or the identifier of the entity is a name of the provider. -/
theorem promoted_at_once_iff (hload : ModuleGraph.ofDocument config document = .ok graph)
    (hpartition : graph.partition = .ok partition)
    (hstep : (start config catalog partition).step = (next, .ok n))
    (hdeclared : (name, declaration) ∈ document.listing config)
    (hvalue : declaration.value = none) :
    ∃ entity promoted, graph.get? name = some entity ∧ entity.kind = declaration.kind ∧
      next.free = partition.free ++ promoted ∧ promoted.length = n ∧
      (entity ∈ promoted ↔
        config.preserveMarker ≠ "" ∨ config.isIntrinsic (entity.logicalId config) = true) := by
  have hdocument := ModuleGraph.declared_of_ofDocument hload
  obtain ⟨entity, hentity, hname, hkind, hreference⟩ :=
    hdocument.exists_default hdeclared hvalue
  refine ⟨entity, (start config catalog partition).promotions.map (·.1), ?_, hkind, ?_, ?_, ?_⟩
  · exact (Entity.find?_eq_some_iff hdocument.valid.nodup).2 ⟨hentity, hname⟩
  · exact free_step hstep
  · rw [List.length_map, (step_eq_ok hstep).2.1]
  · rw [mem_promotions_ref_iff hdocument.valid hpartition hentity hreference,
      Config.isExempt_default_iff]

/-- A resource without a value. -/
def bucket : EntityDeclaration where
  name := "Bucket"
  kind := .resource
  typeName := some "Store"

/-- A function, an input and a resource below it, all without a value. -/
def yard : ModuleDocument where
  name := "Main"
  entities := [
    { name := "Run", kind := .function, scope := ["Run"] },
    { name := "Stage", kind := .input, children := [bucket] }]

/-- A configuration with a preserve marker and a separator of its own. -/
def marked : Config where
  preserveMarker := "~"
  separator := "/"

theorem promoted_at_once_iff_yard :
    marked.fault? = none ∧ ∃ graph partition next n,
      ModuleGraph.ofDocument marked yard = .ok graph ∧ graph.partition = .ok partition ∧
      (start marked .permissive partition).step = (next, .ok n) ∧
      ∃ entity promoted, graph.get? "Stage/Bucket" = some entity ∧
        next.free = partition.free ++ promoted ∧ entity ∈ promoted := by
  let graph : ModuleGraph :=
    { name := "Main"
      entities := [
        { fullName := "Run", kind := .function, reference := .ref "~Run", scope := ["Run"] },
        { fullName := "Stage", kind := .input, reference := .ref "~Stage" },
        { fullName := "Stage/Bucket"
          kind := .resource
          reference := .ref "~StageBucket"
          typeName := "Store" }] }
  let partition : Partition := ⟨"Main", graph.names, [], graph.entities⟩
  have hload : (ModuleGraph.ofDocument marked yard).toOption = some graph := by decide +kernel
  have hpartition : graph.partition.toOption = some partition := by decide +kernel
  have hstep : (start marked .permissive partition).step.2.toOption = some 3 := by decide +kernel
  have hload := eq_ok_of_toOption hload
  have hpartition := eq_ok_of_toOption hpartition
  have hstep : (start marked .permissive partition).step =
      ((start marked .permissive partition).step.1, .ok 3) :=
    Prod.ext rfl (eq_ok_of_toOption hstep)
  have hdeclared : ("Stage/Bucket", bucket) ∈ yard.listing marked :=
    List.mem_cons_of_mem _ (List.mem_cons_of_mem _ List.mem_cons_self)
  obtain ⟨entity, promoted, hget, -, hfree, -, hpromoted⟩ :=
    promoted_at_once_iff hload hpartition hstep hdeclared rfl
  exact ⟨by decide, graph, partition, _, 3, hload, hpartition, hstep, entity, promoted, hget,
    hfree, hpromoted.2 (Or.inl (by decide))⟩

/-- A configuration file that asks for no preserve marker. -/
def unmarked : CommandLine.Files := fun path =>
  if path = "modlink.toml" then .text "preserve_prefix = \"\"\n" else .missing

/-- Two resources without a value.  The identifier of the first one is the full name of a text, that
of the second one is its own full name. -/
def lookalikes : ModuleDocument where
  name := "Main"
  entities := [
    { name := "AB", kind := .value, value := some (.string "s") },
    { name := "A"
      kind := .value
      value := some (.string "a")
      children := [
        { name := "B", kind := .resource, resource := some (.object [("Type", .string "T")]) }] },
    { name := "Q", kind := .resource, resource := some (.object [("Type", .string "T")]) }]

/-- The configuration and the document are accepted.  The first step gives the first resource the
text for its reference, and the second resource waits for itself. -/
theorem default_looked_up :
    ∃ config : Config, CommandLine.readConfig unmarked "modlink.toml" = .ok config ∧
      config.fault? = none ∧ ∃ graph partition next,
        ModuleGraph.ofDocument config lookalikes = .ok graph ∧ graph.partition = .ok partition ∧
        (start config .permissive partition).step = (next, .ok 1) ∧
        (graph.get? "A::B").map Entity.reference = some (.ref "AB") ∧
        (Entity.find? "A::B" next.free).map Entity.reference = some (.string "s") ∧
        (graph.get? "Q").map Entity.reference = some (.ref "Q") ∧
        next.bound.map (·.fullName) = ["Q"] := by
  let config : Config := { preserveMarker := "" }
  let definition : Value := .record { typeName := "T" } (.map []) (.map [])
  let graph : ModuleGraph :=
    { name := "Main"
      entities := [
        .value "AB" (.string "s"),
        .value "A" (.string "a"),
        { fullName := "A::B"
          kind := .resource
          reference := .ref "AB"
          definition := some definition
          typeName := "T" },
        { fullName := "Q"
          kind := .resource
          reference := .ref "Q"
          definition := some definition
          typeName := "T" }] }
  let partition : Partition :=
    ⟨"Main", graph.names, graph.entities.take 2, graph.entities.drop 2⟩
  let next := (start config .permissive partition).step.1
  have hread : (CommandLine.readConfig unmarked "modlink.toml").toOption = some config := by
    decide +kernel
  have hload : (ModuleGraph.ofDocument config lookalikes).toOption = some graph := by
    decide +kernel
  have hpartition : graph.partition.toOption = some partition := by decide +kernel
  have hstep : (start config .permissive partition).step.2.toOption = some 1 := by decide +kernel
  have hchanged : (Entity.find? "A::B" next.free).map Entity.reference = some (.string "s") ∧
      next.bound.map (·.fullName) = ["Q"] := by decide +kernel
  exact ⟨config, eq_ok_of_toOption hread, by decide, graph, partition, next,
    eq_ok_of_toOption hload, eq_ok_of_toOption hpartition,
    Prod.ext rfl (eq_ok_of_toOption hstep), rfl, hchanged.1, rfl, hchanged.2⟩

end Resolver

end StackLinker
