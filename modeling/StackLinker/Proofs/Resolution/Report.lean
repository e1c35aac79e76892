import StackLinker.Proofs.Dependency.Cycles
import StackLinker.Proofs.Resolution.Accounting
import StackLinker.Proofs.Resolution.Settled
import StackLinker.Proofs.Substitution.Answers

/-!
# What the report says

A run that leaves entities bound ends with a sweep that promotes nothing.  Every bound entity has
then been attempted against the free entities of the last state, and the attempt has recorded the
names that it had to leave: names outside the module, and names of other bound entities
(`isRecorded_of_run`).

The report on such entities is read off from these records (`IsExact`).  Every missing name is one
diagnostic.  The strongly connected components of the bound entities, where they are cycles, are one
diagnostic each.  An entity outside the cycles that misses nothing is blocked; since a chain of
blocked entities cannot go on forever, it never stands alone in a report (`exists_cause`).
-/

namespace StackLinker

namespace Pending

/-- The names of bound entities that a bound entity waits for. -/
def waitsFor (pending : Pending) : List String := pending.waitsOn.map (·.key)

/-- The latest pass over a bound entity made its reference, and left something in place. -/
def IsRecorded (around : Surroundings) (pending : Pending) : Prop :=
  ∃ value outcome, around.apply pending.name value = .ok (pending.entity.reference, outcome) ∧
    pending.attempt = some outcome ∧ outcome.isResolved = false

variable {around : Surroundings} {pending : Pending}

/-- Whoever waits, waits for bound entities. -/
theorem IsRecorded.mem_bound (h : pending.IsRecorded around) {key : String}
    (hkey : key ∈ pending.waitsFor) : key ∈ around.bound := by
  obtain ⟨value, outcome, happly, hattempt, -⟩ := h
  obtain ⟨u, hu, rfl⟩ := List.mem_map.1 hkey
  have hbound : u ∈ outcome.bound := by simpa [waitsOn, hattempt] using hu
  have hgrows := Surroundings.growsTo_rewrites (Surroundings.apply_eq_ok_iff.1 happly)
  simpa using hgrows.known u hbound

/-- Who misses nothing waits for something. -/
theorem IsRecorded.waitsFor_ne_nil (h : pending.IsRecorded around)
    (hmissing : pending.missing = []) : pending.waitsFor ≠ [] := by
  obtain ⟨value, outcome, -, hattempt, hresolved⟩ := h
  intro hwaits
  simp only [missing, waitsFor, waitsOn, hattempt, Option.map_some, Option.getD_some,
    List.map_eq_nil_iff] at hmissing hwaits
  simp [Outcome.isResolved, hmissing, hwaits] at hresolved

theorem IsRecorded.kind_invalid (h : pending.IsRecorded around) :
    ∀ diagnostic ∈ pending.invalid, diagnostic.kind = .invalidAttribute := by
  obtain ⟨value, outcome, happly, hattempt, -⟩ := h
  have hblames : outcome.BlamesAttributes := Surroundings.blamesAttributes_of_rewrites
    (Surroundings.apply_eq_ok_iff.1 happly) (by simp [Outcome.BlamesAttributes])
  intro diagnostic hmem
  exact hblames diagnostic (by simpa [invalid, hattempt] using hmem)

end Pending

namespace Diagnostic

/-- The diagnostics of one kind, in order. -/
def ofKind (kind : DiagnosticKind) (report : List Diagnostic) : List Diagnostic :=
  report.filter fun diagnostic => decide (diagnostic.kind = kind)

variable {kind other : DiagnosticKind} {report : List Diagnostic} {diagnostic : Diagnostic}

theorem mem_ofKind : diagnostic ∈ ofKind kind report ↔
    diagnostic ∈ report ∧ diagnostic.kind = kind := by
  simp [ofKind]

theorem ofKind_append (kind : DiagnosticKind) (first second : List Diagnostic) :
    ofKind kind (first ++ second) = ofKind kind first ++ ofKind kind second :=
  List.filter_append ..

/-- Of diagnostics of one kind, all or none are of a given kind. -/
theorem ofKind_eq_ite (h : ∀ diagnostic ∈ report, diagnostic.kind = other) :
    ofKind kind report = if other = kind then report else [] := by
  split
  · rename_i hkind
    exact List.filter_eq_self.2 fun diagnostic hmem => by simp [h diagnostic hmem, hkind]
  · rename_i hkind
    exact List.filter_eq_nil_iff.2 fun diagnostic hmem => by simp [h diagnostic hmem, hkind]

end Diagnostic

namespace FailureReport

open Diagnostic (ofKind)

variable {waiting : List Pending} {pending : Pending} {around : Surroundings}

/-! ## The parts of a report -/

/-- The diagnostics for the names that an entity misses. -/
def missingDiagnostics (pending : Pending) : List Diagnostic :=
  pending.missing.map fun u => .missingReference pending.name u.key u.path.text

theorem kind_missingDiagnostics (pending : Pending) :
    ∀ diagnostic ∈ missingDiagnostics pending, diagnostic.kind = .missingReference := by
  intro diagnostic hmem
  obtain ⟨u, -, rfl⟩ := List.mem_map.1 hmem
  rfl

theorem kind_circular (waiting : List Pending) (groups : List (List String)) :
    ∀ diagnostic ∈ groups.map (circular waiting), diagnostic.kind = .circularDependency := by
  intro diagnostic hmem
  obtain ⟨group, -, rfl⟩ := List.mem_map.1 hmem
  rfl

/-- What the diagnostic for a blocked entity says. -/
theorem blocked?_eq_some {groups : List (List String)} {diagnostic : Diagnostic}
    (h : blocked? groups pending = some diagnostic) :
    diagnostic.kind = .blockedDependency ∧ diagnostic.entity = pending.name ∧
      diagnostic.related = pending.waitsFor.eraseDups := by
  unfold blocked? at h
  split at h
  · simp at h
  · split at h
    · simp at h
    · rename_i head rest hwaits _
      obtain rfl := Option.some.inj h
      exact ⟨rfl, rfl, rfl⟩

/-- A bound entity is blocked if it waits, is in no group, and misses nothing. -/
theorem isSome_blocked?_iff {groups : List (List String)} :
    (blocked? groups pending).isSome = true ↔ pending.waitsFor ≠ [] ∧
      (¬ ∃ group ∈ groups, pending.name ∈ group) ∧ pending.missing = [] := by
  unfold blocked? Pending.waitsFor
  split
  · rename_i hwaits
    simp [hwaits]
  · rename_i head rest hwaits
    split
    · rename_i h
      simp only [Bool.or_eq_true, List.any_eq_true, List.contains_iff_mem, Bool.not_eq_true',
        List.isEmpty_eq_false_iff] at h
      simpa [hwaits] using fun hnone => h.resolve_left hnone
    · rename_i h
      simp only [Bool.or_eq_true, List.any_eq_true, List.contains_iff_mem, Bool.not_eq_true',
        List.isEmpty_eq_false_iff, not_or, not_not] at h
      simpa [hwaits] using h

/-! ## The graph of bound entities -/

/-- The first entity waits for the second. -/
def WaitsFor (waiting : List Pending) (a b : String) : Prop :=
  ∃ pending ∈ waiting, pending.name = a ∧ b ∈ pending.waitsFor

/-- The latest pass over each bound entity is recorded, and no two of them have the same name. -/
structure IsSettled (around : Surroundings) (waiting : List Pending) : Prop where
  nodup : (names waiting).Nodup
  bound : around.bound = names waiting
  recorded : ∀ pending ∈ waiting, pending.IsRecorded around

theorem IsSettled.mem_names (h : IsSettled around waiting) (hpending : pending ∈ waiting)
    {key : String} (hkey : key ∈ pending.waitsFor) : key ∈ names waiting :=
  h.bound ▸ (h.recorded pending hpending).mem_bound hkey

@[simp] theorem keys_graph (waiting : List Pending) :
    Fields.keys (graph waiting) = names waiting := by
  simp [graph, names, Fields.keys, Function.comp_def]

theorem arrow_graph (h : IsSettled around waiting) :
    Dependency.Arrow (graph waiting) = WaitsFor waiting := by
  have hentry : ∀ pending ∈ waiting,
      Dependency.targets (graph waiting) pending.name = pending.waitsFor := by
    intro pending hpending
    have hall : (pending.waitsOn.map (·.key)).filter (fun key => (names waiting).contains key) =
        pending.waitsFor :=
      List.filter_eq_self.2 fun key hkey => by simpa using h.mem_names hpending hkey
    have hmem : (pending.name, pending.waitsFor) ∈ graph waiting :=
      List.mem_map.2 ⟨pending, hpending, by rw [hall]⟩
    rw [Dependency.targets, Fields.find?_eq_some_of_mem (by simpa using h.nodup) hmem]
    rfl
  funext a b
  refine propext ⟨fun harrow => ?_, ?_⟩
  · -- Only a name of the graph has arrows.
    have ha : a ∈ names waiting := by
      by_contra hnot
      have hnone : Fields.find? a (graph waiting) = none := by
        rw [← keys_graph, ← Fields.contains_iff_mem_keys] at hnot
        simpa [Fields.contains] using hnot
      simp [Dependency.Arrow, Dependency.targets, hnone] at harrow
    obtain ⟨pending, hpending, rfl⟩ := List.mem_map.1 ha
    exact ⟨pending, hpending, rfl, hentry pending hpending ▸ harrow⟩
  · rintro ⟨pending, hpending, rfl, hb⟩
    rwa [Dependency.Arrow, hentry pending hpending]

theorem isClosed_graph (h : IsSettled around waiting) :
    Dependency.IsClosed (graph waiting) := by
  intro a b harrow
  rw [arrow_graph h] at harrow
  obtain ⟨pending, hpending, -, hb⟩ := harrow
  simpa using h.mem_names hpending hb

/-- An entity waits for itself through a chain of others. -/
def OnCycle (waiting : List Pending) (name : String) : Prop :=
  Relation.TransGen (WaitsFor waiting) name name

theorem exists_mem_cycles_iff (h : IsSettled around waiting) {name : String} :
    (∃ group ∈ cycles waiting, name ∈ group) ↔ OnCycle waiting name := by
  rw [cycles, Dependency.exists_mem_cycles_iff (isClosed_graph h) (by simpa using h.nodup),
    Dependency.LeadsTo, arrow_graph h, OnCycle]

theorem mem_cycles_iff (h : IsSettled around waiting) {group : List String} :
    group ∈ cycles waiting ↔
      Dependency.IsCycle (WaitsFor waiting) (names waiting) group := by
  rw [cycles, Dependency.mem_cycles_iff (isClosed_graph h) (by simpa using h.nodup),
    arrow_graph h, keys_graph]

/-! ## Exact reports -/

/-- How a report accounts for the entities that stay bound. -/
structure IsExact (waiting : List Pending) (report : List Diagnostic) : Prop where
  /-- One diagnostic for every time that a name is missing. -/
  missing : ofKind .missingReference report = waiting.flatMap missingDiagnostics
  /-- The groups are the components of the bound entities that are cycles. -/
  groups : ∀ group,
    group ∈ (ofKind .circularDependency report).map (fun d => d.entity :: d.related) ↔
      Dependency.IsCycle (WaitsFor waiting) (names waiting) group
  /-- There is one diagnostic for each of them. -/
  groups_nodup : ((ofKind .circularDependency report).map fun d => d.entity :: d.related).Nodup
  /-- They stand in the order of their first members. -/
  groups_order : ((ofKind .circularDependency report).map (·.entity)).Sublist (names waiting)
  /-- An entity is blocked if it is on no cycle and misses nothing. -/
  blocked : ∀ pending ∈ waiting,
    pending.name ∈ (ofKind .blockedDependency report).map (·.entity) ↔
      pending.missing = [] ∧ ¬ OnCycle waiting pending.name
  /-- There is one diagnostic for each of them. -/
  blocked_nodup : ((ofKind .blockedDependency report).map (·.entity)).Nodup
  /-- It names what the entity waits for, each once, and that is bound as well. -/
  blocked_related : ∀ d ∈ ofKind .blockedDependency report, ∃ pending ∈ waiting,
    pending.name = d.entity ∧ d.related.Nodup ∧
      (∀ key, key ∈ d.related ↔ key ∈ pending.waitsFor) ∧ d.related ⊆ names waiting
  /-- No bound entity is passed over. -/
  named : ∀ pending ∈ waiting, ∃ d ∈ report, d.kind ≠ .invalidAttribute ∧
    (d.entity = pending.name ∨ pending.name ∈ d.related)
  /-- Entities are only blocked where something is missing or circular. -/
  cause : ofKind .blockedDependency report ≠ [] →
    ofKind .missingReference report ≠ [] ∨ ofKind .circularDependency report ≠ []

theorem kind_blocked (groups : List (List String)) (waiting : List Pending) :
    ∀ diagnostic ∈ waiting.filterMap (blocked? groups), diagnostic.kind = .blockedDependency := by
  intro diagnostic hmem
  obtain ⟨pending, -, hblocked⟩ := List.mem_filterMap.1 hmem
  exact (blocked?_eq_some hblocked).1

theorem ofKind_ownDiagnostics (h : pending.IsRecorded around) (kind : DiagnosticKind)
    (hkind : kind ≠ .invalidAttribute) : ofKind kind pending.ownDiagnostics =
      if .missingReference = kind then missingDiagnostics pending else [] := by
  rw [Pending.ownDiagnostics, Diagnostic.ofKind_append]
  change ofKind kind (missingDiagnostics pending) ++ _ = _
  rw [Diagnostic.ofKind_eq_ite (kind_missingDiagnostics pending),
    Diagnostic.ofKind_eq_ite h.kind_invalid, if_neg hkind.symm, List.append_nil]

/-- A report consists of its three parts. -/
theorem ofKind_unresolved (h : IsSettled around waiting) (kind : DiagnosticKind)
    (hkind : kind ≠ .invalidAttribute) : ofKind kind (unresolved waiting) =
      (if .missingReference = kind then waiting.flatMap missingDiagnostics else []) ++
      (if .circularDependency = kind then (cycles waiting).map (circular waiting) else []) ++
      (if .blockedDependency = kind then waiting.filterMap (blocked? (cycles waiting))
        else []) := by
  have hown : ofKind kind (waiting.flatMap Pending.ownDiagnostics) =
      if .missingReference = kind then waiting.flatMap missingDiagnostics else [] := by
    have hparts : waiting.flatMap (fun pending => ofKind kind pending.ownDiagnostics) =
        waiting.flatMap fun pending =>
          if .missingReference = kind then missingDiagnostics pending else [] :=
      List.flatMap_congr fun pending hpending =>
        ofKind_ownDiagnostics (h.recorded pending hpending) kind hkind
    rw [ofKind, List.filter_flatMap]
    refine hparts.trans ?_
    split <;> simp
  rw [unresolved, Diagnostic.ofKind_append, Diagnostic.ofKind_append, hown,
    Diagnostic.ofKind_eq_ite (kind_circular waiting _),
    Diagnostic.ofKind_eq_ite (kind_blocked _ waiting)]

/-- The diagnostic for a group lists its members in order. -/
theorem members_circular {group : List String} (hgroup : group ≠ []) :
    (circular waiting group).entity :: (circular waiting group).related = group := by
  obtain ⟨first, rest, rfl⟩ := List.exists_cons_of_ne_nil hgroup
  rfl

theorem ne_nil_of_mem_cycles (h : IsSettled around waiting) {group : List String}
    (hgroup : group ∈ cycles waiting) : group ≠ [] := by
  obtain ⟨a, ha, -⟩ := ((mem_cycles_iff h).1 hgroup).mutual_reach
  exact List.ne_nil_of_mem ha

theorem map_members_circular (h : IsSettled around waiting) :
    ((cycles waiting).map (circular waiting)).map (fun d => d.entity :: d.related) =
      cycles waiting := by
  rw [List.map_map]
  conv_rhs => rw [← List.map_id (cycles waiting)]
  exact List.map_congr_left fun group hgroup => members_circular (ne_nil_of_mem_cycles h hgroup)

theorem map_entity_circular (waiting : List Pending) :
    ((cycles waiting).map (circular waiting)).map (·.entity) =
      (cycles waiting).map fun group => group.headD "" := by
  rw [List.map_map]
  rfl

/-- Where nothing is missing, some entity waits for itself. -/
theorem exists_onCycle (h : IsSettled around waiting) (hne : waiting ≠ [])
    (hmissing : ∀ pending ∈ waiting, pending.missing = []) : ∃ name, OnCycle waiting name := by
  have hwaits : ∀ a ∈ Fields.keys (graph waiting), ∃ b, Dependency.Arrow (graph waiting) a b := by
    intro a ha
    rw [keys_graph] at ha
    obtain ⟨pending, hpending, rfl⟩ := List.mem_map.1 ha
    obtain ⟨key, hkey⟩ := List.exists_mem_of_ne_nil _
      ((h.recorded pending hpending).waitsFor_ne_nil (hmissing pending hpending))
    exact ⟨key, arrow_graph h ▸ ⟨pending, hpending, rfl, hkey⟩⟩
  obtain ⟨a, ha⟩ := Dependency.exists_leadsTo_self (isClosed_graph h) (by simpa [names] using hne)
    hwaits
  rw [Dependency.LeadsTo, arrow_graph h] at ha
  exact ⟨a, ha⟩

theorem missing_unresolved (h : IsSettled around waiting) :
    ofKind .missingReference (unresolved waiting) = waiting.flatMap missingDiagnostics := by
  simp [ofKind_unresolved h .missingReference (by decide)]

theorem circular_unresolved (h : IsSettled around waiting) :
    ofKind .circularDependency (unresolved waiting) =
      (cycles waiting).map (circular waiting) := by
  simp [ofKind_unresolved h .circularDependency (by decide)]

theorem blocked_unresolved (h : IsSettled around waiting) :
    ofKind .blockedDependency (unresolved waiting) =
      waiting.filterMap (blocked? (cycles waiting)) := by
  simp [ofKind_unresolved h .blockedDependency (by decide)]

theorem isBlocked_iff (h : IsSettled around waiting) (hpending : pending ∈ waiting) :
    (blocked? (cycles waiting) pending).isSome = true ↔
      pending.missing = [] ∧ ¬ OnCycle waiting pending.name := by
  rw [isSome_blocked?_iff, exists_mem_cycles_iff h]
  constructor
  · rintro ⟨-, hcycle, hmissing⟩
    exact ⟨hmissing, hcycle⟩
  · rintro ⟨hmissing, hcycle⟩
    exact ⟨(h.recorded pending hpending).waitsFor_ne_nil hmissing, hcycle, hmissing⟩

/-- An entity that stays bound misses something, is on a cycle, or is blocked. -/
theorem exists_diagnostic (h : IsSettled around waiting) (hpending : pending ∈ waiting) :
    ∃ d ∈ unresolved waiting, d.kind ≠ .invalidAttribute ∧
      (d.entity = pending.name ∨ pending.name ∈ d.related) := by
  have hmem : ∀ {kind d}, d ∈ ofKind kind (unresolved waiting) → d ∈ unresolved waiting :=
    fun hd => (Diagnostic.mem_ofKind.1 hd).1
  by_cases hmissing : pending.missing = []
  · by_cases hcycle : OnCycle waiting pending.name
    · obtain ⟨group, hgroup, hname⟩ := (exists_mem_cycles_iff h).2 hcycle
      rw [← @members_circular waiting group (ne_nil_of_mem_cycles h hgroup)] at hname
      have hcircular := circular_unresolved h ▸ List.mem_map_of_mem hgroup
      exact ⟨circular waiting group, hmem hcircular, by simp [circular],
        (List.mem_cons.1 hname).imp_left Eq.symm⟩
    · obtain ⟨d, hd⟩ := Option.isSome_iff_exists.1 ((isBlocked_iff h hpending).2 ⟨hmissing, hcycle⟩)
      obtain ⟨hkind, hentity, -⟩ := blocked?_eq_some hd
      have hblocked := blocked_unresolved h ▸ List.mem_filterMap.2 ⟨pending, hpending, hd⟩
      exact ⟨d, hmem hblocked, by simp [hkind], Or.inl hentity⟩
  · obtain ⟨u, hu⟩ := List.exists_mem_of_ne_nil _ hmissing
    have hown : Diagnostic.missingReference pending.name u.key u.path.text ∈
        waiting.flatMap missingDiagnostics :=
      List.mem_flatMap.2 ⟨pending, hpending, List.mem_map_of_mem hu⟩
    exact ⟨_, hmem (missing_unresolved h ▸ hown), by simp [Diagnostic.missingReference], Or.inl rfl⟩

/-- Entities are only blocked where something is missing or circular. -/
theorem exists_cause (h : IsSettled around waiting) (hne : waiting ≠ []) :
    ofKind .missingReference (unresolved waiting) ≠ [] ∨
      ofKind .circularDependency (unresolved waiting) ≠ [] := by
  rw [missing_unresolved h, circular_unresolved h]
  by_contra hnone
  rw [not_or, not_not, not_not, List.map_eq_nil_iff] at hnone
  obtain ⟨name, hcycle⟩ := exists_onCycle h hne fun pending hpending => by
    simpa [missingDiagnostics] using List.flatMap_eq_nil_iff.1 hnone.1 pending hpending
  obtain ⟨group, hgroup, -⟩ := (exists_mem_cycles_iff h).2 hcycle
  simp [hnone.2] at hgroup

/-- The report on settled entities is exact. -/
theorem isExact_unresolved (h : IsSettled around waiting) :
    IsExact waiting (unresolved waiting) := by
  refine ⟨missing_unresolved h, ?groups, ?groups_nodup, ?groups_order, ?blocked, ?blocked_nodup,
    ?blocked_related, fun pending hpending => exists_diagnostic h hpending, ?cause⟩
  case groups =>
    intro group
    rw [circular_unresolved h, map_members_circular h, mem_cycles_iff h]
  case groups_nodup =>
    rw [circular_unresolved h, map_members_circular h]
    exact Dependency.nodup_cycles (isClosed_graph h) (by simpa using h.nodup)
  case groups_order =>
    rw [circular_unresolved h, map_entity_circular, ← keys_graph]
    exact Dependency.heads_cycles_sublist (isClosed_graph h) (by simpa using h.nodup)
  case blocked =>
    intro pending hpending
    rw [blocked_unresolved h, ← isBlocked_iff h hpending]
    constructor
    · intro hmem
      obtain ⟨d, hd, hentity⟩ := List.mem_map.1 hmem
      obtain ⟨origin, horigin, hsome⟩ := List.mem_filterMap.1 hd
      obtain rfl : origin = pending := List.inj_on_of_nodup_map h.nodup horigin hpending
        ((blocked?_eq_some hsome).2.1.symm.trans hentity)
      exact Option.isSome_iff_exists.2 ⟨d, hsome⟩
    · intro hsome
      obtain ⟨d, hd⟩ := Option.isSome_iff_exists.1 hsome
      exact List.mem_map.2 ⟨d, List.mem_filterMap.2 ⟨pending, hpending, hd⟩,
        (blocked?_eq_some hd).2.1⟩
  case blocked_nodup =>
    rw [blocked_unresolved h]
    exact h.nodup.sublist
      (Resolver.map_filterMap_sublist (fun hsome => (blocked?_eq_some hsome).2.1) waiting)
  case blocked_related =>
    intro d hd
    rw [blocked_unresolved h] at hd
    obtain ⟨pending, hpending, hsome⟩ := List.mem_filterMap.1 hd
    obtain ⟨-, hentity, hrelated⟩ := blocked?_eq_some hsome
    rw [hrelated]
    refine ⟨pending, hpending, hentity.symm, nodup_eraseDups _, fun key => List.mem_eraseDups, ?_⟩
    exact fun key hkey => h.mem_names hpending (List.mem_eraseDups.1 hkey)
  case cause =>
    intro hblocked
    refine exists_cause h ?_
    rintro rfl
    exact hblocked (by rw [blocked_unresolved h]; rfl)

end FailureReport

namespace Resolver

open FailureReport (IsSettled IsExact unresolved)

variable {config : Config} {catalog : Catalog} {resolver next last : Resolver} {n : Nat}

theorem nodup_step (hnodup : (resolver.waiting.map Pending.name).Nodup)
    (hstep : resolver.step = (next, .ok n)) : (next.waiting.map Pending.name).Nodup := by
  obtain ⟨-, -, rfl⟩ := step_eq_ok hstep
  exact hnodup.sublist (names_remaining_sublist resolver)

/-- A step that promotes nothing leaves all entities bound. -/
theorem names_waiting_of_step (hstep : resolver.step = (next, .ok 0)) :
    next.waiting.map Pending.name = resolver.waiting.map Pending.name := by
  obtain ⟨-, -, hnext⟩ := step_eq_ok hstep
  have hsublist := names_remaining_sublist resolver
  have hlength := length_waiting_of_step hstep
  subst hnext
  exact hsublist.eq_of_length (by simpa using hlength)

/-- A step that promotes nothing leaves what a pass sees as it is. -/
theorem surroundings_of_step (hstep : resolver.step = (next, .ok 0)) :
    next.surroundings = resolver.surroundings := by
  have hnames := names_waiting_of_step hstep
  obtain ⟨-, hcount, hnext⟩ := step_eq_ok hstep
  have hnone : resolver.promotions = [] := List.length_eq_zero_iff.1 hcount.symm
  have hfree : next.free = resolver.free := by simp [hnext, hnone]
  have hbound : Entity.names next.bound = Entity.names resolver.bound := by
    rw [names_bound, names_bound, hnames]
  have hconfig : next.config = resolver.config := by rw [hnext]
  have hcatalog : next.catalog = resolver.catalog := by rw [hnext]
  rw [surroundings, surroundings, hfree, hconfig, hcatalog]
  exact congrArg (Surroundings.mk _ _ _) hbound

/-- The entities that a step lets wait are recorded as they were met. -/
theorem isRecorded_of_step (hstep : resolver.step = (next, .ok n)) :
    ∀ pending ∈ next.waiting, pending.IsRecorded resolver.surroundings := by
  obtain ⟨-, -, rfl⟩ := step_eq_ok hstep
  intro pending hpending
  obtain ⟨before, -, hkeeps⟩ := List.mem_filterMap.1 hpending
  obtain ⟨value, outcome, happly, hresolved, rfl⟩ := Surroundings.keeps?_eq_some hkeeps
  exact ⟨before.entity.reference, outcome, happly, rfl, hresolved⟩

/-- Where a run ends, the latest pass over each bound entity is recorded. -/
theorem isSettled_of_run {partition : Partition} (hnodup : (Entity.names partition.bound).Nodup)
    (hrun : (start config catalog partition).run = (last, none)) :
    IsSettled last.surroundings last.waiting := by
  have hstart : ((start config catalog partition).waiting.map Pending.name).Nodup := by
    simpa [start, Entity.names, Pending.name, Function.comp_def] using hnodup
  obtain ⟨final, hfinal, rfl, hend⟩ := run_invariant nodup_step hstart hrun
  have hrecorded : ∀ pending ∈ final.waiting, pending.IsRecorded final.surroundings := by
    rcases hend with hempty | ⟨before, -, hstep⟩
    · simp [hempty]
    · rw [surroundings_of_step hstep]
      exact isRecorded_of_step hstep
  exact ⟨hfinal, names_bound final, hrecorded⟩

theorem finish_of_settled (hsettled : last.settled = true) : last.finish = last.conclude := by
  simp [finish, hsettled]

/-- A state with something to report concludes with a failure that reports it. -/
theorem conclude_of_unresolved (h : unresolved last.waiting ≠ []) :
    ∃ failure, last.conclude = .error failure ∧
      ∀ errors, failure = .diagnostics errors → unresolved last.waiting <:+: errors := by
  unfold conclude
  simp only
  split
  · exact ⟨_, rfl, by simp⟩
  · rename_i linked _
    rw [if_neg (by simp [h])]
    refine ⟨_, rfl, fun errors herrors => ?_⟩
    rw [← LinkFailure.diagnostics.inj herrors]
    exact ⟨last.diagnostics, linked.2, rfl⟩

/-- When a run ends with entities still bound, the report says exactly why, and resolution fails
with it. -/
theorem report_of_run {partition : Partition} (hnodup : (Entity.names partition.bound).Nodup)
    (hrun : (start config catalog partition).run = (last, none)) (hleft : last.waiting ≠ []) :
    (∀ pending ∈ last.waiting, pending.IsRecorded last.surroundings) ∧
      IsExact last.waiting (unresolved last.waiting) ∧
      ∃ failure, last.finish = .error failure ∧
        ∀ errors, failure = .diagnostics errors → unresolved last.waiting <:+: errors := by
  have hsettled := isSettled_of_run hnodup hrun
  have hexact := FailureReport.isExact_unresolved hsettled
  refine ⟨hsettled.recorded, hexact, ?_⟩
  have hdone : last.settled = true := by
    have := @settled_run (start config catalog partition) (by rw [hrun])
    rwa [hrun] at this
  rw [finish_of_settled hdone]
  obtain ⟨pending, hpending⟩ := List.exists_mem_of_ne_nil _ hleft
  obtain ⟨d, hd, -⟩ := hexact.named pending hpending
  exact conclude_of_unresolved (List.ne_nil_of_mem hd)

/-- Two entities that wait for each other, one that waits for them, and one that misses a name. -/
def knottedPartition : Partition where
  name := "Main"
  order := ["A", "B", "C", "D"]
  free := []
  bound := [.value "A" (.ref "B"), .value "B" (.list [.ref "A", .ref "B"]),
    .value "C" (.list [.ref "B", .ref "D", .ref "B"]), .value "D" (.ref "E")]

/-- Where the run from `knottedPartition` ends. -/
def knottedEnd : Resolver := (start {} .permissive knottedPartition).run.1

theorem report_of_run_knotted :
    (Entity.names knottedPartition.bound).Nodup ∧
      (start {} .permissive knottedPartition).run = (knottedEnd, none) ∧
      knottedEnd.waiting ≠ [] ∧
      (∀ pending ∈ knottedEnd.waiting, pending.IsRecorded knottedEnd.surroundings) ∧
      IsExact knottedEnd.waiting (unresolved knottedEnd.waiting) ∧
      ∃ failure, knottedEnd.finish = .error failure ∧
        ∀ errors, failure = .diagnostics errors → unresolved knottedEnd.waiting <:+: errors := by
  have hnodup : (Entity.names knottedPartition.bound).Nodup := by decide
  have hrun : (start {} .permissive knottedPartition).run = (knottedEnd, none) := by
    have hnone : (start {} .permissive knottedPartition).run.2 = none := by decide +kernel
    exact Prod.ext rfl hnone
  have hleft : knottedEnd.waiting ≠ [] := by
    have hlength : knottedEnd.waiting.length = 4 := by decide +kernel
    exact List.ne_nil_of_length_pos (by omega)
  exact ⟨hnodup, hrun, hleft, report_of_run hnodup hrun hleft⟩

end Resolver

end StackLinker
