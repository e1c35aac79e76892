import StackLinker.Proofs.Resolution.Report

/-!
# The order of declaration does not matter

Two modules with the same entities in different orders are resolved alike.  The proof runs both
resolvers side by side.  Their states stay `Similar`: the lists of entities are permutations of each
other, and everything else is the same.

A pass sees its surroundings only through what names mean, so in similar states it does the same to
every reference (`Agree.apply`).  Therefore a sweep promotes the same entities in both, and lets the
same ones wait (`Similar.step`).  This needs that a sweep does not see what it promotes itself.  At
the end, the reports list the same findings.  Only the diagnostics for cycles depend on the order of
declaration, since they name the members of a cycle in this order; the groups of names are the same
(`SameFindings`).
-/

namespace StackLinker

namespace Surroundings

/-! ## Passes that see the same -/

/-- Surroundings in which all names mean the same. -/
structure Agree (first second : Surroundings) : Prop where
  config : first.config = second.config
  catalog : first.catalog = second.catalog
  free : ∀ name, Entity.find? name first.free = Entity.find? name second.free
  bound : ∀ name, name ∈ first.bound ↔ name ∈ second.bound

namespace Agree

variable {first second : Surroundings}

theorem meaning (h : Agree first second) (key : String) :
    first.meaning key = second.meaning key := by
  simp only [Surroundings.meaning, h.config, h.free, h.bound]

theorem checkAttribute (h : Agree first second) : first.checkAttribute = second.checkAttribute := by
  funext source target attr path
  simp only [Surroundings.checkAttribute, h.catalog]

theorem freshNumber (h : Agree first second) (arguments : Fields Value) (limit number : Nat) :
    first.freshNumber arguments limit number = second.freshNumber arguments limit number := by
  induction limit generalizing number with
  | zero => rfl
  | succ limit ih =>
      have hname : first.syntheticName number = second.syntheticName number := by
        simp only [syntheticName, h.config]
      unfold Surroundings.freshNumber
      rw [hname, ih]

theorem splice (h : Agree first second) : first.splice = second.splice := by
  funext value filling
  simp only [Surroundings.splice, h.freshNumber, syntheticName, h.config]

theorem answer (h : Agree first second) : first.answer = second.answer := by
  funext source path placeholder filling
  simp only [Surroundings.answer, h.meaning, h.splice, h.checkAttribute, h.config]

theorem settle (h : Agree first second) : first.settle = second.settle := by
  funext source path node form outcome
  cases form with
  | reference key => simp only [Surroundings.settle, reference, h.meaning]
  | attributeOf key attr =>
      simp only [Surroundings.settle, attributeOf, h.meaning, h.checkAttribute, h.config]
  | substitution pattern arguments => simp only [Surroundings.settle, substitution, h.answer]

/-- A pass does the same in both. -/
theorem apply (h : Agree first second) : first.apply = second.apply := by
  funext source value
  simp only [Surroundings.apply, rule, h.settle]

theorem passes_iff (h : Agree first second) (pending : Pending) :
    first.Passes pending ↔ second.Passes pending := by
  simp only [Passes, h.apply]

theorem keeps? (h : Agree first second) : first.keeps? = second.keeps? := by
  funext pending
  simp only [Surroundings.keeps?, h.apply]

theorem promotes? (h : Agree first second) : first.promotes? = second.promotes? := by
  funext pending
  simp only [Surroundings.promotes?, h.apply]

theorem linkFree (h : Agree first second) :
    Resolver.linkFree first = Resolver.linkFree second := by
  funext entity
  simp only [Resolver.linkFree, Resolver.linkDefinition, h.apply, h.free]

end Agree

end Surroundings

namespace Resolver

variable {config : Config} {catalog : Catalog} {first second next : Resolver} {n : Nat}
  {e : StructuralError}

/-! ## Sweeps and runs side by side -/

/-- States that differ at most in the order of their lists. -/
structure Similar (first second : Resolver) : Prop where
  config : first.config = second.config
  catalog : first.catalog = second.catalog
  name : first.name = second.name
  order : first.order.Perm second.order
  free : first.free.Perm second.free
  waiting : first.waiting.Perm second.waiting
  diagnostics : first.diagnostics.Perm second.diagnostics
  stats : first.stats = second.stats
  settled : first.settled = second.settled

/-- The names of the entities of a state are those in its order, each once. -/
structure IsCovered (resolver : Resolver) : Prop where
  names : (Entity.names (resolver.free ++ resolver.bound)).Perm resolver.order
  nodup : resolver.order.Nodup

theorem IsCovered.step (h : first.IsCovered) (hstep : first.step = (next, .ok n)) :
    next.IsCovered := by
  have horder : next.order = first.order := by rw [(step_eq_ok hstep).2.2]
  exact ⟨horder ▸ (names_step_perm hstep).trans h.names, horder ▸ h.nodup⟩

namespace Similar

theorem symm (h : Similar first second) : Similar second first :=
  ⟨h.config.symm, h.catalog.symm, h.name.symm, h.order.symm, h.free.symm, h.waiting.symm,
    h.diagnostics.symm, h.stats.symm, h.settled.symm⟩

theorem bound (h : Similar first second) : first.bound.Perm second.bound :=
  h.waiting.map _

theorem isCovered (h : Similar first second) (hcovered : first.IsCovered) : second.IsCovered :=
  ⟨((h.free.append h.bound).symm.map _).trans (hcovered.names.trans h.order),
    h.order.nodup_iff.1 hcovered.nodup⟩

theorem agree (h : Similar first second) (hcovered : first.IsCovered) :
    first.surroundings.Agree second.surroundings := by
  have hnodup : (Entity.names first.free).Nodup := by
    have hall := hcovered.names.nodup_iff.2 hcovered.nodup
    rw [Entity.names_append] at hall
    exact hall.of_append_left
  refine ⟨h.config, h.catalog, fun name => Entity.find?_perm hnodup h.free, fun name => ?_⟩
  exact (h.bound.map _).mem_iff

/-- A sweep promotes the same entities in both states, and lets the same ones wait. -/
theorem step (h : Similar first second) (hcovered : first.IsCovered)
    (hstep : first.step = (next, .ok n)) :
    ∃ other, second.step = (other, .ok n) ∧ Similar next other := by
  obtain ⟨hpasses, rfl, rfl⟩ := step_eq_ok hstep
  have hagree := h.agree hcovered
  have hother : ∀ pending ∈ second.waiting, second.surroundings.Passes pending :=
    fun pending hpending => (hagree.passes_iff pending).1
      (hpasses pending (h.waiting.mem_iff.2 hpending))
  have hpromotions : first.promotions.Perm second.promotions := by
    rw [promotions, promotions, hagree.promotes?]
    exact h.waiting.filterMap _
  have hremaining : first.remaining.Perm second.remaining := by
    rw [remaining, remaining, hagree.keeps?]
    exact h.waiting.filterMap _
  have hnext := step_of_passes hother
  rw [← hpromotions.length_eq, ← hremaining.isEmpty_eq, ← h.stats, ← h.settled] at hnext
  exact ⟨_, hnext, h.config, h.catalog, h.name, h.order, h.free.append (hpromotions.map _),
    hremaining, h.diagnostics.append (hpromotions.flatMap_right _), rfl, rfl⟩

/-- A sweep meets a structural error in both states or in none. -/
theorem step_error (h : Similar first second) (hcovered : first.IsCovered)
    (hstep : first.step = (next, .error e)) :
    ∃ other fault, second.step = (other, .error fault) := by
  rcases hother : second.step with ⟨other, fault | n⟩
  · exact ⟨other, fault, rfl⟩
  · obtain ⟨_, hsame, -⟩ := h.symm.step (h.isCovered hcovered) hother
    simp [hstep] at hsame

/-- Runs from similar states end in similar states, or both with a structural error. -/
theorem run (h : Similar first second) (hcovered : first.IsCovered) :
    (first.run.2 = none ↔ second.run.2 = none) ∧
      (first.run.2 = none → Similar first.run.1 second.run.1) := by
  refine run_induction (P := fun first ended => ∀ second, Similar first second → first.IsCovered →
    (ended.2 = none ↔ second.run.2 = none) ∧ (ended.2 = none → Similar ended.1 second.run.1))
    ?done ?failed ?stalled ?promoted first second h hcovered
  case done =>
    intro first hempty second h _
    rw [run_of_isEmpty (h.waiting.isEmpty_eq ▸ hempty)]
    exact ⟨Iff.rfl, fun _ => ⟨h.config, h.catalog, h.name, h.order, h.free, h.waiting,
      h.diagnostics, h.stats, rfl⟩⟩
  case failed =>
    intro first next e hempty hstep second h hcovered
    obtain ⟨other, fault, hother⟩ := h.step_error hcovered hstep
    rw [run_of_error (h.waiting.isEmpty_eq ▸ hempty) hother]
    exact ⟨by simp, by simp⟩
  case stalled =>
    intro first next hempty hstep second h hcovered
    obtain ⟨other, hother, hnext⟩ := h.step hcovered hstep
    rw [run_of_ok (h.waiting.isEmpty_eq ▸ hempty) hother, if_pos rfl]
    exact ⟨Iff.rfl, fun _ => ⟨hnext.config, hnext.catalog, hnext.name, hnext.order, hnext.free,
      hnext.waiting, hnext.diagnostics, hnext.stats, rfl⟩⟩
  case promoted =>
    intro first next n hempty hstep hn ih second h hcovered
    obtain ⟨other, hother, hnext⟩ := h.step hcovered hstep
    rw [run_of_ok (h.waiting.isEmpty_eq ▸ hempty) hother, if_neg hn]
    exact ih other hnext (hcovered.step hstep)

end Similar

end Resolver

/-! ## Reports that say the same -/

/-- The names in a diagnostic for a cycle. -/
def Diagnostic.members (diagnostic : Diagnostic) : List String :=
  diagnostic.entity :: diagnostic.related

/-- The same diagnostics in some order, except that cycles may start elsewhere: the same groups of
names have one. -/
structure SameFindings (first second : List Diagnostic) : Prop where
  findings : ∀ kind, kind ≠ .circularDependency →
    (Diagnostic.ofKind kind first).Perm (Diagnostic.ofKind kind second)
  groups : ∀ d ∈ Diagnostic.ofKind .circularDependency first,
    ∃ other ∈ Diagnostic.ofKind .circularDependency second, d.members.Perm other.members
  groups_back : ∀ d ∈ Diagnostic.ofKind .circularDependency second,
    ∃ other ∈ Diagnostic.ofKind .circularDependency first, d.members.Perm other.members

namespace SameFindings

open Diagnostic (ofKind)

variable {first second more others : List Diagnostic}

theorem symm (h : SameFindings first second) : SameFindings second first :=
  ⟨fun kind hkind => (h.findings kind hkind).symm, h.groups_back, h.groups⟩

theorem of_perm (h : first.Perm second) : SameFindings first second := by
  have hkind : ∀ kind, (ofKind kind first).Perm (ofKind kind second) := fun kind => h.filter _
  exact ⟨fun kind _ => hkind kind,
    fun d hd => ⟨d, (hkind _).mem_iff.1 hd, List.Perm.refl _⟩,
    fun d hd => ⟨d, (hkind _).mem_iff.2 hd, List.Perm.refl _⟩⟩

theorem append (h : SameFindings first second) (hmore : SameFindings more others) :
    SameFindings (first ++ more) (second ++ others) := by
  have hgroups : ∀ {a b c d : List Diagnostic}, SameFindings a b → SameFindings c d →
      ∀ x ∈ ofKind .circularDependency (a ++ c),
        ∃ other ∈ ofKind .circularDependency (b ++ d), x.members.Perm other.members := by
    intro a b c d hab hcd x hx
    rw [Diagnostic.ofKind_append, List.mem_append] at hx
    rw [Diagnostic.ofKind_append]
    rcases hx with hx | hx
    · obtain ⟨other, hother, hsame⟩ := hab.groups x hx
      exact ⟨other, List.mem_append_left _ hother, hsame⟩
    · obtain ⟨other, hother, hsame⟩ := hcd.groups x hx
      exact ⟨other, List.mem_append_right _ hother, hsame⟩
  refine ⟨fun kind hkind => ?_, hgroups h hmore, hgroups h.symm hmore.symm⟩
  rw [Diagnostic.ofKind_append, Diagnostic.ofKind_append]
  exact (h.findings kind hkind).append (hmore.findings kind hkind)

/-- One of the lists is only empty if the other one is. -/
theorem nil_of_nil (h : SameFindings first second) (hnil : first = []) : second = [] := by
  subst hnil
  refine List.eq_nil_iff_forall_not_mem.2 fun d hd => ?_
  by_cases hkind : d.kind = .circularDependency
  · obtain ⟨other, hother, -⟩ := h.groups_back d (Diagnostic.mem_ofKind.2 ⟨hd, hkind⟩)
    simp [ofKind] at hother
  · have hmem := (h.findings d.kind hkind).mem_iff.2 (Diagnostic.mem_ofKind.2 ⟨hd, rfl⟩)
    simp [ofKind] at hmem

end SameFindings

namespace FailureReport

open Diagnostic (ofKind)

variable {waiting others : List Pending} {around : Surroundings}

theorem waitsFor_perm (h : waiting.Perm others) : WaitsFor waiting = WaitsFor others := by
  funext a b
  simp only [WaitsFor, h.mem_iff]

theorem onCycle_perm (h : waiting.Perm others) : OnCycle waiting = OnCycle others := by
  funext name
  simp only [OnCycle, waitsFor_perm h]

theorem blocked?_congr {groups more : List (List String)} {pending : Pending}
    (h : (∃ group ∈ groups, pending.name ∈ group) ↔ ∃ group ∈ more, pending.name ∈ group) :
    blocked? groups pending = blocked? more pending := by
  have hany : groups.any (·.contains pending.name) = more.any (·.contains pending.name) := by
    rw [Bool.eq_iff_iff]
    simpa [List.any_eq_true] using h
  unfold blocked?
  rw [hany]

/-- Settled entities in another order have the same groups of names that wait for each other. -/
theorem exists_circular_perm (h : IsSettled around waiting) (hperm : waiting.Perm others)
    {elsewhere : Surroundings} (hothers : IsSettled elsewhere others) {d : Diagnostic}
    (hd : d ∈ ofKind .circularDependency (unresolved waiting)) :
    ∃ other ∈ ofKind .circularDependency (unresolved others), d.members.Perm other.members := by
  rw [circular_unresolved h] at hd
  obtain ⟨group, hgroup, rfl⟩ := List.mem_map.1 hd
  obtain ⟨other, hsame, hcycle⟩ :=
    ((mem_cycles_iff h).1 hgroup).reorder h.nodup (hperm.map Pending.name)
  rw [waitsFor_perm hperm] at hcycle
  have hother : other ∈ cycles others := (mem_cycles_iff hothers).2 hcycle
  refine ⟨circular others other, circular_unresolved hothers ▸ List.mem_map_of_mem hother, ?_⟩
  rw [Diagnostic.members, Diagnostic.members, members_circular (ne_nil_of_mem_cycles h hgroup),
    members_circular (ne_nil_of_mem_cycles hothers hother)]
  exact hsame

/-- The reports on settled entities in different orders say the same. -/
theorem sameFindings_unresolved (h : IsSettled around waiting) (hperm : waiting.Perm others)
    {elsewhere : Surroundings} (hothers : IsSettled elsewhere others) :
    SameFindings (unresolved waiting) (unresolved others) := by
  refine ⟨fun kind hkind => ?_, fun d hd => exists_circular_perm h hperm hothers hd,
    fun d hd => exists_circular_perm hothers hperm.symm h hd⟩
  have hblocked : waiting.filterMap (blocked? (cycles waiting)) =
      waiting.filterMap (blocked? (cycles others)) := by
    refine List.filterMap_congr fun pending _ => blocked?_congr ?_
    rw [exists_mem_cycles_iff h, exists_mem_cycles_iff hothers, onCycle_perm hperm]
  simp only [unresolved, Diagnostic.ofKind_append,
    Diagnostic.ofKind_eq_ite (kind_circular waiting _),
    Diagnostic.ofKind_eq_ite (kind_circular others _), if_neg hkind.symm, List.append_nil]
  rw [hblocked]
  exact ((hperm.flatMap_right _).filter _).append ((hperm.filterMap _).filter _)

end FailureReport

namespace Resolver

open FailureReport (IsSettled unresolved)

variable {config : Config} {catalog : Catalog} {first second : Resolver}

/-! ## Declarations -/

/-- Results of linking declarations that are the same up to the order, or structural errors both. -/
inductive SameLinked : Except StructuralError (List Entity × List Diagnostic) →
    Except StructuralError (List Entity × List Diagnostic) → Prop
  | error (e fault : StructuralError) : SameLinked (.error e) (.error fault)
  | ok {linked same : List Entity × List Diagnostic} (hentities : linked.1.Perm same.1)
      (hdiagnostics : linked.2.Perm same.2) : SameLinked (.ok linked) (.ok same)

theorem sameLinked_linkDefinitions {around : Surroundings} {entities others : List Entity}
    (hperm : entities.Perm others) :
    SameLinked (linkDefinitions around entities) (linkDefinitions around others) := by
  induction hperm with
  | nil => exact .ok (List.Perm.refl _) (List.Perm.refl _)
  | @cons entity entities others _ ih =>
      simp only [linkDefinitions]
      generalize linkDefinitions around entities = first at ih ⊢
      generalize linkDefinitions around others = second at ih ⊢
      cases linkFree around entity with
      | error e => exact .error e e
      | ok own =>
          cases ih with
          | error e fault => exact .error e fault
          | ok hentities hdiagnostics =>
              exact .ok (hentities.cons own.1) (hdiagnostics.append_left own.2)
  | swap entity other rest =>
      simp only [linkDefinitions]
      rcases linkFree around entity with e | own <;> rcases linkFree around other with f | next <;>
        rcases linkDefinitions around rest with g | others <;>
        first
          | exact .error _ _
          | refine .ok (List.Perm.swap ..) ?_
      change (next.2 ++ (own.2 ++ others.2)).Perm (own.2 ++ (next.2 ++ others.2))
      rw [← List.append_assoc, ← List.append_assoc]
      exact List.perm_append_comm.append_right _
  | @trans entities middle others _ _ first second =>
      generalize linkDefinitions around entities = before at first ⊢
      generalize linkDefinitions around middle = between at first second
      generalize linkDefinitions around others = after at second ⊢
      cases first with
      | error e fault =>
          cases second with
          | error _ last => exact .error e last
      | ok hentities hdiagnostics =>
          cases second with
          | ok hmore hothers => exact .ok (hentities.trans hmore) (hdiagnostics.trans hothers)

/-! ## Whole resolutions -/

/-- Results of a resolution that are the same up to the order of declaration.  Structural errors are
not compared, since only the first one is found. -/
inductive SameResult : Except LinkFailure (ModuleGraph × Stats) →
    Except LinkFailure (ModuleGraph × Stats) → Prop
  | structural (e fault : StructuralError) :
      SameResult (.error (.structural e)) (.error (.structural fault))
  | diagnostics {errors others : List Diagnostic} (h : SameFindings errors others) :
      SameResult (.error (.diagnostics errors)) (.error (.diagnostics others))
  | linked {graph other : ModuleGraph} {stats : Stats} (hname : graph.name = other.name)
      (hentities : graph.entities.Perm other.entities) :
      SameResult (.ok (graph, stats)) (.ok (other, stats))

theorem linkDefinitions_of_agree {around other : Surroundings} (h : around.Agree other) :
    linkDefinitions around = linkDefinitions other := by
  funext entities
  induction entities with
  | nil => rfl
  | cons entity rest ih => simp only [linkDefinitions, h.linkFree, ih]

theorem Similar.isSettled (h : Similar first second) (hcovered : first.IsCovered)
    (hsettled : IsSettled first.surroundings first.waiting) :
    IsSettled second.surroundings second.waiting := by
  refine ⟨(h.waiting.map _).nodup_iff.1 hsettled.nodup, names_bound second, ?_⟩
  intro pending hpending
  have hrecorded := hsettled.recorded pending (h.waiting.mem_iff.2 hpending)
  rwa [Pending.IsRecorded, (h.agree hcovered).apply] at hrecorded

/-- Similar states conclude with the same result. -/
theorem Similar.conclude (h : Similar first second) (hcovered : first.IsCovered)
    (hsettled : IsSettled first.surroundings first.waiting) :
    SameResult first.conclude second.conclude := by
  have hsecond := h.isCovered hcovered
  have hentities : first.partition.toGraph.entities.Perm second.partition.toGraph.entities :=
    calc first.partition.toGraph.entities.Perm (first.free ++ first.bound) :=
        @Partition.perm_toGraph first.partition hcovered.names hcovered.nodup
      List.Perm _ (second.free ++ second.bound) := h.free.append h.bound
      List.Perm _ second.partition.toGraph.entities :=
        (@Partition.perm_toGraph second.partition hsecond.names hsecond.nodup).symm
  have hlinked := @sameLinked_linkDefinitions first.surroundings _ _ hentities
  have hfindings := ((SameFindings.of_perm h.diagnostics).append
    (FailureReport.sameFindings_unresolved hsettled h.waiting (h.isSettled hcovered hsettled)))
  unfold Resolver.conclude
  simp only
  rw [← linkDefinitions_of_agree (h.agree hcovered)]
  generalize linkDefinitions first.surroundings first.partition.toGraph.entities = one at hlinked ⊢
  generalize linkDefinitions first.surroundings second.partition.toGraph.entities = two
    at hlinked ⊢
  cases hlinked with
  | error e fault => exact .structural e fault
  | @ok linked same hlinked hdiagnostics =>
      have hall := hfindings.append (.of_perm hdiagnostics)
      simp only
      split <;> rename_i hempty <;> rw [List.isEmpty_iff] at hempty
      · rw [if_pos (List.isEmpty_iff.2 (hall.nil_of_nil hempty)), h.stats]
        exact .linked h.name hlinked
      · rw [if_neg fun hnil => hempty (hall.symm.nil_of_nil (List.isEmpty_iff.1 hnil))]
        exact .diagnostics hall

theorem isCovered_start {graph : ModuleGraph} {partition : Partition} (hnodup : graph.names.Nodup)
    (hpartition : graph.partition = .ok partition) :
    (start config catalog partition).IsCovered := by
  have hkept := kept_start hpartition config catalog
  exact ⟨hkept.order ▸ hkept.perm, hkept.order ▸ hnodup⟩

theorem isCovered_of_run {graph : ModuleGraph} {partition : Partition}
    (hnodup : graph.names.Nodup) (hpartition : graph.partition = .ok partition)
    (hrun : (start config catalog partition).run = (first, none)) : first.IsCovered := by
  obtain ⟨final, hfinal, rfl, -⟩ :=
    run_invariant IsCovered.step (isCovered_start hnodup hpartition) hrun
  exact ⟨hfinal.names, hfinal.nodup⟩

theorem finish_of_run {partition : Partition}
    (hrun : (start config catalog partition).run = (first, none)) :
    first.finish = first.conclude := by
  have hsettled := @settled_run (start config catalog partition) (by rw [hrun])
  rw [hrun] at hsettled
  exact finish_of_settled hsettled

theorem similar_start {graph other : ModuleGraph} {partition others : Partition}
    (hname : graph.name = other.name) (hperm : graph.entities.Perm other.entities)
    (hpartition : graph.partition = .ok partition) (hother : other.partition = .ok others) :
    Similar (start config catalog partition) (start config catalog others) := by
  obtain ⟨hname₁, horder₁, hfree₁, hbound₁⟩ := ModuleGraph.partition_eq_ok hpartition
  obtain ⟨hname₂, horder₂, hfree₂, hbound₂⟩ := ModuleGraph.partition_eq_ok hother
  have hfree : partition.free.Perm others.free := by
    rw [hfree₁, hfree₂]
    exact hperm.filter _
  refine ⟨rfl, rfl, ?name, ?order, hfree, ?waiting, List.Perm.refl _, ?stats, rfl⟩
  case name => simp only [start, hname₁, hname₂, hname]
  case order =>
    simp only [start, horder₁, horder₂]
    exact hperm.map _
  case waiting =>
    simp only [start, hbound₁, hbound₂]
    exact (hperm.filter _).map _
  case stats => simp only [start, hfree.length_eq]

end Resolver

namespace ModuleGraph

open Resolver

variable {config : Config} {catalog : Catalog} {graph other : ModuleGraph}

/-- Splits the entities of a module, and resolves the parts. -/
def resolve (config : Config) (catalog : Catalog) (graph : ModuleGraph) :
    Except LinkFailure (ModuleGraph × Stats) :=
  match graph.partition with
  | .error e => .error (.structural e)
  | .ok partition => Resolver.resolve config catalog partition

/-- A module that is resolved has been split before. -/
theorem exists_partition_of_resolve {result : ModuleGraph × Stats}
    (h : graph.resolve config catalog = .ok result) : ∃ partition,
      graph.partition = .ok partition ∧ Resolver.resolve config catalog partition = .ok result := by
  unfold resolve at h
  split at h
  · simp at h
  · rename_i partition hpartition
    exact ⟨partition, hpartition, h⟩

/-- The state in which the run on a module ends, with the structural error that it met, if the
entities can be split. -/
def run? (config : Config) (catalog : Catalog) (graph : ModuleGraph) :
    Option (Resolver × Option StructuralError) :=
  graph.partition.toOption.map fun partition => (start config catalog partition).run

/-- Runs that end alike: both start with no parts, both end with a structural error, or both end
in similar states. -/
inductive SameRun : Option (Resolver × Option StructuralError) →
    Option (Resolver × Option StructuralError) → Prop
  | unsplit : SameRun none none
  | structural (first second : Resolver) (e fault : StructuralError) :
      SameRun (some (first, some e)) (some (second, some fault))
  | ended {first second : Resolver} (h : Similar first second) :
      SameRun (some (first, none)) (some (second, none))

/-- The order of declaration does not decide whether a module can be split. -/
theorem exists_partition_perm (hperm : graph.entities.Perm other.entities) {partition : Partition}
    (h : graph.partition = .ok partition) : ∃ others, other.partition = .ok others := by
  obtain ⟨parts, hparts⟩ : ∃ parts, Entity.split graph.entities = .ok parts := by
    unfold ModuleGraph.partition at h
    cases hsplit : Entity.split graph.entities with
    | error e => simp [hsplit, Except.map] at h
    | ok parts => exact ⟨parts, rfl⟩
  obtain ⟨others, hothers⟩ := @Entity.exists_split other.entities fun entity hmem =>
    Entity.ne_null_of_split hparts entity (hperm.mem_iff.2 hmem)
  exact ⟨_, by rw [ModuleGraph.partition, hothers, Except.map]⟩

/-- The same entities in another order are resolved alike. -/
theorem resolve_perm (hnodup : graph.names.Nodup) (hname : graph.name = other.name)
    (hperm : graph.entities.Perm other.entities) :
    SameResult (graph.resolve config catalog) (other.resolve config catalog) ∧
      SameRun (graph.run? config catalog) (other.run? config catalog) := by
  unfold resolve run?
  cases hpartition : graph.partition with
  | error e =>
      cases hother : other.partition with
      | error fault => exact ⟨.structural e fault, .unsplit⟩
      | ok others =>
          obtain ⟨partition, hok⟩ := exists_partition_perm hperm.symm hother
          simp [hpartition] at hok
  | ok partition =>
      obtain ⟨others, hother⟩ := exists_partition_perm hperm hpartition
      have hsimilar : Similar (start config catalog partition) (start config catalog others) :=
        similar_start hname hperm hpartition hother
      obtain ⟨hends, hsame⟩ := hsimilar.run (isCovered_start hnodup hpartition)
      rw [hother]
      simp only [Except.toOption, Option.map_some, Resolver.resolve]
      rcases hrun : (start config catalog partition).run with ⟨first, _ | e⟩ <;>
        rcases hrun' : (start config catalog others).run with ⟨second, _ | fault⟩ <;>
        simp only [hrun, hrun', reduceCtorEq, iff_true, true_iff, true_implies] at hends hsame
      · rw [finish_of_run hrun, finish_of_run hrun']
        refine ⟨hsame.conclude (isCovered_of_run hnodup hpartition hrun) ?_, .ended hsame⟩
        obtain ⟨-, -, -, hbound⟩ := partition_eq_ok hpartition
        refine isSettled_of_run ?_ hrun
        rw [hbound]
        exact hnodup.sublist (List.filter_sublist.map _)
      · exact ⟨.structural e fault, .structural first second e fault⟩

/-- A chain, two entities that wait for each other, and one that misses a name. -/
def tangled : ModuleGraph where
  name := "Main"
  entities := [.value "A" (.ref "B"), .value "B" (.sub "${C}" []), .value "C" (.string "c"),
    .value "D" (.ref "E"), .value "E" (.list [.ref "D", .ref "A"]), .value "F" (.ref "G")]

/-- The same module, declared the other way round. -/
def tangledBack : ModuleGraph := { tangled with entities := tangled.entities.reverse }

theorem resolve_perm_tangled :
    tangled.names.Nodup ∧ tangled.name = tangledBack.name ∧
      tangled.entities.Perm tangledBack.entities ∧
      SameResult (tangled.resolve {} .permissive) (tangledBack.resolve {} .permissive) ∧
      SameRun (tangled.run? {} .permissive) (tangledBack.run? {} .permissive) := by
  have hnodup : tangled.names.Nodup := by decide
  have hperm : tangled.entities.Perm tangledBack.entities := (List.reverse_perm _).symm
  exact ⟨hnodup, rfl, hperm, resolve_perm hnodup rfl hperm⟩

end ModuleGraph

end StackLinker
