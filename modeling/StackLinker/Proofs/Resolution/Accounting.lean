import StackLinker.Proofs.Resolution.Sweep

/-!
# No entity is lost

Whatever is asked of a resolver, single steps and whole runs in any order, with and without
structural errors, the entities of the module stay accounted for: each is either free or bound, is
what was declared but for its reference, and keeps its place in the order of declaration.

The argument follows the states one change at a time.  `Iterated first rounds state` says that
`state` comes about from `first`, and that the iterations on the way promoted the entities in
`rounds`.  `Kept` is what every change preserves; a sweep splits the bound names into the promoted
and the remaining ones, each in their order (`perm_promotions_remaining`).  What a reader wants to
know follows from `Kept` and is collected in `Accounts`.
-/

namespace StackLinker

namespace Resolver

variable {graph : ModuleGraph} {resolver next : Resolver} {rounds : List (List String)}
  {n : Nat} {e : StructuralError}

/-! ## Where resolution starts -/

section Start

variable {config : Config} {catalog : Catalog} {partition : Partition} {entity : Entity}

@[simp] theorem bound_start (config : Config) (catalog : Catalog) (partition : Partition) :
    (start config catalog partition).bound = partition.bound := by
  simp [bound, start, Function.comp_def]

/-- Resolution starts with what is declared. -/
theorem mem_entities_of_start (h : graph.partition = .ok partition)
    (hentity : entity ∈ (start config catalog partition).free ++
      (start config catalog partition).bound) : entity ∈ graph.entities := by
  rw [bound_start] at hentity
  exact (ModuleGraph.perm_partition h).mem_iff.1 hentity

/-- At the start each entity is the declared one with its name. -/
theorem declared_eq_of_start (hnodup : graph.names.Nodup) (h : graph.partition = .ok partition)
    {origin : Entity} (horigin : origin ∈ graph.entities)
    (hentity : entity ∈ (start config catalog partition).free ++
      (start config catalog partition).bound) (hname : origin.fullName = entity.fullName) :
    origin = entity :=
  List.inj_on_of_nodup_map hnodup horigin (mem_entities_of_start h hentity) hname

/-- What is free at the start is so by its shape. -/
theorem classify_of_start (h : graph.partition = .ok partition)
    (hentity : entity ∈ (start config catalog partition).free) :
    entity.reference.classify entity.fullName = .ok .free := by
  rw [show (start config catalog partition).free = _ from (ModuleGraph.partition_eq_ok h).2.2.1]
    at hentity
  simpa [Entity.isFree] using (List.mem_filter.1 hentity).2

end Start

/-! ## What one sweep does to the names -/

@[simp] theorem names_bound (resolver : Resolver) :
    Entity.names resolver.bound = resolver.waiting.map Pending.name := by
  simp [Entity.names, bound, Pending.name]

theorem name_of_keeps? {around : Surroundings} {pending kept : Pending}
    (h : around.keeps? pending = some kept) : kept.name = pending.name := by
  obtain ⟨value, outcome, -, -, rfl⟩ := Surroundings.keeps?_eq_some h
  rfl

theorem fullName_of_promotes? {around : Surroundings} {pending : Pending}
    {promoted : Entity × List Diagnostic} (h : around.promotes? pending = some promoted) :
    promoted.1.fullName = pending.name := by
  obtain ⟨value, outcome, -, -, rfl⟩ := Surroundings.promotes?_eq_some h
  rfl

theorem map_filterMap_sublist {α β γ : Type} {f : α → Option β} {g : α → γ} {h : β → γ}
    (hsame : ∀ {x y}, f x = some y → h y = g x) (l : List α) :
    ((l.filterMap f).map h).Sublist (l.map g) := by
  induction l with
  | nil => simp
  | cons x l ih =>
      cases hx : f x with
      | none => simpa [hx] using ih.cons (g x)
      | some y => simpa [hx, hsame hx] using ih.cons_cons (g x)

/-- The names of the entities that the next sweep promotes. -/
def promotedNames (resolver : Resolver) : List String :=
  Entity.names (resolver.promotions.map (·.1))

theorem promotedNames_sublist (resolver : Resolver) :
    resolver.promotedNames.Sublist (resolver.waiting.map Pending.name) := by
  rw [promotedNames, Entity.names, List.map_map]
  exact map_filterMap_sublist fullName_of_promotes? resolver.waiting

/-- An entity is promoted if the pass over its reference leaves no name in place. -/
theorem mem_promotedNames {name : String} : name ∈ resolver.promotedNames ↔
    ∃ pending ∈ resolver.waiting, pending.name = name ∧ ∃ value outcome,
      resolver.surroundings.apply pending.entity.fullName pending.entity.reference =
        .ok (value, outcome) ∧ outcome.isResolved = true := by
  simp only [promotedNames, Entity.names, promotions, List.mem_map, List.mem_filterMap]
  constructor
  · rintro ⟨entity, ⟨promoted, ⟨pending, hpending, hsome⟩, rfl⟩, rfl⟩
    obtain ⟨value, outcome, happly, hresolved, rfl⟩ := Surroundings.promotes?_eq_some hsome
    exact ⟨pending, hpending, rfl, value, outcome, happly, hresolved⟩
  · rintro ⟨pending, hpending, rfl, value, outcome, happly, hresolved⟩
    refine ⟨_, ⟨(pending.entity.withReference value, outcome.invalid), ⟨pending, hpending, ?_⟩,
      rfl⟩, rfl⟩
    simp [Surroundings.promotes?, happly, hresolved]

theorem names_remaining_sublist (resolver : Resolver) :
    (resolver.remaining.map Pending.name).Sublist (resolver.waiting.map Pending.name) :=
  map_filterMap_sublist name_of_keeps? resolver.waiting

private theorem perm_promotes?_keeps? {around : Surroundings} {waiting : List Pending}
    (h : ∀ pending ∈ waiting, around.Passes pending) :
    (Entity.names ((waiting.filterMap around.promotes?).map (·.1)) ++
      (waiting.filterMap around.keeps?).map Pending.name).Perm (waiting.map Pending.name) := by
  induction waiting with
  | nil => exact List.Perm.refl []
  | cons pending rest ih =>
      obtain ⟨value, outcome, happly⟩ := h pending List.mem_cons_self
      have hrest := ih fun other hother => h other (List.mem_cons_of_mem _ hother)
      cases hresolved : outcome.isResolved with
      | true =>
          have hkeeps : around.keeps? pending = none := by
            simp [Surroundings.keeps?, happly, hresolved]
          have hpromotes : around.promotes? pending =
              some (pending.entity.withReference value, outcome.invalid) := by
            simp [Surroundings.promotes?, happly, hresolved]
          simpa [hkeeps, hpromotes, Pending.name] using hrest
      | false =>
          have hkeeps : around.keeps? pending =
              some ⟨pending.entity.withReference value, some outcome⟩ := by
            simp [Surroundings.keeps?, happly, hresolved]
          have hpromotes : around.promotes? pending = none := by
            simp [Surroundings.promotes?, happly, hresolved]
          simpa [hkeeps, hpromotes, Pending.name] using
            List.perm_middle.trans (hrest.cons pending.name)

/-- A sweep promotes a bound entity or lets it wait, but not both. -/
theorem perm_promotions_remaining
    (h : ∀ pending ∈ resolver.waiting, resolver.surroundings.Passes pending) :
    (resolver.promotedNames ++ resolver.remaining.map Pending.name).Perm
      (resolver.waiting.map Pending.name) :=
  perm_promotes?_keeps? h

/-- A step keeps the names of the free and the bound entities taken together. -/
theorem names_step_perm (hstep : resolver.step = (next, .ok n)) :
    (Entity.names (next.free ++ next.bound)).Perm
      (Entity.names (resolver.free ++ resolver.bound)) := by
  obtain ⟨hpasses, -, rfl⟩ := step_eq_ok hstep
  simp only [Entity.names_append, names_bound, List.append_assoc]
  exact (perm_promotions_remaining hpasses).append_left _

/-- What the passes of a step preserve of each entity, the step preserves, whether or not it meets a
structural error. -/
theorem forall_entities_step {Q : Entity → Prop} {result : Except StructuralError Nat}
    (hpass : ∀ {entity value outcome},
      resolver.surroundings.apply entity.fullName entity.reference = .ok (value, outcome) →
        Q entity → Q (entity.withReference value))
    (h : ∀ entity ∈ resolver.free ++ resolver.bound, Q entity)
    (hstep : resolver.step = (next, result)) : ∀ entity ∈ next.free ++ next.bound, Q entity := by
  have hfree : ∀ entity ∈ resolver.free, Q entity := fun entity hentity =>
    h entity (List.mem_append_left _ hentity)
  have hwaiting : ∀ pending ∈ resolver.waiting, Q pending.entity := fun pending hpending =>
    h pending.entity (List.mem_append_right _ (List.mem_map_of_mem hpending))
  have hkeeps : ∀ pending ∈ resolver.waiting, ∀ kept,
      resolver.surroundings.keeps? pending = some kept → Q kept.entity := by
    intro pending hpending kept hkept
    obtain ⟨value, outcome, happly, -, rfl⟩ := Surroundings.keeps?_eq_some hkept
    exact hpass happly (hwaiting pending hpending)
  intro entity hentity
  rcases result with e | n
  · obtain ⟨before, after, hsplit, rfl⟩ := step_eq_error hstep
    simp only [bound, List.map_append, List.mem_append, List.mem_map] at hentity
    rcases hentity with hmem | ⟨_, ⟨other, hother, rfl⟩, rfl⟩ | ⟨pending, hpending, rfl⟩
    · exact hfree entity hmem
    · have hold : other ∈ resolver.waiting := hsplit ▸ List.mem_append_left _ hother
      cases hkept : resolver.surroundings.keeps? other with
      | none => exact hwaiting other hold
      | some kept => exact hkeeps other hold kept hkept
    · exact hwaiting pending (hsplit ▸ List.mem_append_right _ hpending)
  · obtain ⟨-, -, rfl⟩ := step_eq_ok hstep
    simp only [bound, List.mem_append, List.mem_map] at hentity
    rcases hentity with (hmem | ⟨entry, hentry, rfl⟩) | ⟨kept, hkept, rfl⟩
    · exact hfree entity hmem
    · obtain ⟨pending, hpending, hsome⟩ := List.mem_filterMap.1 hentry
      obtain ⟨value, outcome, happly, -, rfl⟩ := Surroundings.promotes?_eq_some hsome
      exact hpass happly (hwaiting pending hpending)
    · obtain ⟨pending, hpending, hsome⟩ := List.mem_filterMap.1 hkept
      exact hkeeps pending hpending kept hsome

/-! ## The states of a resolver -/

/-- The states that come about from a first one.  `rounds` holds the names that each iteration on
the way promoted; a sweep that meets a structural error is none. -/
inductive Iterated (first : Resolver) : List (List String) → Resolver → Prop
  | refl : Iterated first [] first
  | promote {rounds : List (List String)} {resolver next : Resolver} {n : Nat}
      {promoted : List Entity} (h : Iterated first rounds resolver)
      (hstep : resolver.step = (next, .ok n)) (hfree : next.free = resolver.free ++ promoted) :
      Iterated first (rounds ++ [Entity.names promoted]) next
  | fail {rounds : List (List String)} {resolver next : Resolver} {e : StructuralError}
      (h : Iterated first rounds resolver) (hstep : resolver.step = (next, .error e)) :
      Iterated first rounds next
  | settle {rounds : List (List String)} {resolver : Resolver}
      (h : Iterated first rounds resolver) :
      Iterated first rounds { resolver with settled := true }

variable {first : Resolver}

theorem Iterated.step (h : Iterated first rounds resolver) :
    ∃ rounds, Iterated first rounds resolver.step.1 := by
  rcases hstep : resolver.step with ⟨next, e | n⟩
  · exact ⟨rounds, h.fail hstep⟩
  · exact ⟨_, h.promote hstep (free_step hstep)⟩

theorem Iterated.trans {more : List (List String)} {last : Resolver}
    (h : Iterated first rounds resolver) (hmore : Iterated resolver more last) :
    Iterated first (rounds ++ more) last := by
  induction hmore with
  | refl => simpa using h
  | promote _ hstep hfree ih =>
      rw [← List.append_assoc]
      exact ih.promote hstep hfree
  | fail _ hstep ih => exact ih.fail hstep
  | settle _ ih => exact ih.settle

/-- What passes preserve of each entity, as long as it holds of the free ones, holds of all entities
in every state that follows. -/
theorem forall_entities_of_iterated {Q : Entity → Prop}
    (hpass : ∀ {resolver : Resolver}, (∀ target ∈ resolver.free, Q target) →
      ∀ {entity value outcome},
        resolver.surroundings.apply entity.fullName entity.reference = .ok (value, outcome) →
          Q entity → Q (entity.withReference value))
    (hstart : ∀ entity ∈ first.free ++ first.bound, Q entity)
    (h : Iterated first rounds resolver) : ∀ entity ∈ resolver.free ++ resolver.bound, Q entity := by
  induction h with
  | refl => exact hstart
  | promote _ hstep _ ih | fail _ hstep ih =>
      exact forall_entities_step (hpass fun target htarget =>
        ih target (List.mem_append_left _ htarget)) ih hstep
  | settle _ ih => exact ih

/-- A run passes through a sequence of steps and settles at most. -/
theorem Iterated.run (h : Iterated first rounds resolver) :
    ∃ rounds, Iterated first rounds resolver.run.1 := by
  refine run_induction (P := fun resolver ended => ∀ rounds, Iterated first rounds resolver →
    ∃ rounds, Iterated first rounds ended.1) ?done ?failed ?stalled ?promoted resolver rounds h
  case done =>
    intro resolver _ rounds h
    exact ⟨rounds, h.settle⟩
  case failed =>
    intro resolver next e _ hstep rounds h
    exact ⟨rounds, h.fail hstep⟩
  case stalled =>
    intro resolver next _ hstep rounds h
    obtain ⟨later, hnext⟩ := h.step
    rw [hstep] at hnext
    exact ⟨later, hnext.settle⟩
  case promoted =>
    intro resolver next n _ hstep _ ih rounds h
    obtain ⟨later, hnext⟩ := h.step
    rw [hstep] at hnext
    exact ih later hnext

/-- What a caller may ask of a resolver. -/
inductive Call where
  | step
  | run
deriving DecidableEq, Repr

/-- The state after a call, whether or not it answered with a structural error. -/
def perform (resolver : Resolver) : Call → Resolver
  | .step => resolver.step.1
  | .run => resolver.run.1

/-- The state after a sequence of calls. -/
def after (resolver : Resolver) (calls : List Call) : Resolver :=
  calls.foldl perform resolver

theorem after_append (resolver : Resolver) (calls more : List Call) :
    resolver.after (calls ++ more) = (resolver.after calls).after more :=
  List.foldl_append

theorem Iterated.after (h : Iterated first rounds resolver) (calls : List Call) :
    ∃ rounds, Iterated first rounds (resolver.after calls) := by
  induction calls generalizing resolver rounds with
  | nil => exact ⟨rounds, h⟩
  | cons call rest ih =>
      cases call with
      | step =>
          obtain ⟨later, hnext⟩ := h.step
          exact ih hnext
      | run =>
          obtain ⟨later, hnext⟩ := h.run
          exact ih hnext

theorem exists_iterated (first : Resolver) (calls : List Call) :
    ∃ rounds, Iterated first rounds (first.after calls) :=
  Iterated.refl.after calls

/-! ## The invariant -/

/-- What every change of a resolver preserves. -/
structure Kept (graph : ModuleGraph) (rounds : List (List String)) (resolver : Resolver) :
    Prop where
  name : resolver.name = graph.name
  order : resolver.order = graph.names
  perm : (Entity.names (resolver.free ++ resolver.bound)).Perm graph.names
  declared : ∀ entity ∈ resolver.free ++ resolver.bound, ∃ origin ∈ graph.entities,
    entity = origin.withReference entity.reference
  bound_order : (Entity.names resolver.bound).Sublist graph.names
  free_order : Entity.names resolver.free =
    Entity.names (graph.entities.filter Entity.isFree) ++ rounds.flatten
  round_order : ∀ round ∈ rounds, round.Sublist graph.names
  iterations : resolver.stats.iterations = rounds.length
  count : resolver.stats.initiallyFree + resolver.stats.promoted = resolver.free.length

theorem kept_start {partition : Partition} (h : graph.partition = .ok partition) (config : Config)
    (catalog : Catalog) : Kept graph [] (start config catalog partition) := by
  obtain ⟨hname, horder, hfree, hbound⟩ := ModuleGraph.partition_eq_ok h
  refine ⟨hname, horder, ?_, ?_, ?_, ?_, by simp, rfl, by simp [start]⟩
  · rw [bound_start]
    exact (ModuleGraph.perm_partition h).map _
  · exact fun entity hmem => ⟨entity, mem_entities_of_start h hmem, rfl⟩
  · rw [bound_start, hbound]
    exact List.filter_sublist.map _
  · simp [start, hfree]

/-- A step keeps what is declared of each entity. -/
private theorem Kept.declared_step {result : Except StructuralError Nat}
    (h : Kept graph rounds resolver) (hstep : resolver.step = (next, result)) :
    ∀ entity ∈ next.free ++ next.bound, ∃ origin ∈ graph.entities,
      entity = origin.withReference entity.reference := by
  refine forall_entities_step (fun {entity value outcome} _ hdeclared => ?_) h.declared hstep
  obtain ⟨origin, hmem, heq⟩ := hdeclared
  exact ⟨origin, hmem, by rw [heq]; rfl⟩

theorem Kept.promote {promoted : List Entity} (h : Kept graph rounds resolver)
    (hstep : resolver.step = (next, .ok n)) (hfree : next.free = resolver.free ++ promoted) :
    Kept graph (rounds ++ [Entity.names promoted]) next := by
  obtain ⟨hpasses, -, rfl⟩ := step_eq_ok hstep
  -- The entities that became free are those of the sweep.
  have hpromoted : promoted = resolver.promotions.map (·.1) := (List.append_cancel_left hfree).symm
  subst hpromoted
  have hbound : Entity.names resolver.bound = resolver.waiting.map Pending.name :=
    names_bound resolver
  refine ⟨h.name, h.order, ?perm, ?declared, ?bound_order, ?free_order, ?round_order, ?iterations,
    ?count⟩
  case perm => exact (names_step_perm hstep).trans h.perm
  case declared => exact h.declared_step hstep
  case bound_order =>
    rw [names_bound]
    exact (names_remaining_sublist resolver).trans (hbound ▸ h.bound_order)
  case free_order =>
    simp [h.free_order]
  case round_order =>
    intro round hround
    rcases List.mem_append.1 hround with hround | hround
    · exact h.round_order round hround
    · rw [List.mem_singleton.1 hround]
      exact (promotedNames_sublist resolver).trans (hbound ▸ h.bound_order)
  case iterations =>
    simp [h.iterations]
  case count =>
    have hcount := h.count
    simp only [List.length_append, List.length_map]
    omega

theorem Kept.step (h : Kept graph rounds resolver) (hstep : resolver.step = (next, .ok n)) :
    ∃ rounds, Kept graph rounds next :=
  ⟨_, h.promote hstep (free_step hstep)⟩

theorem Kept.fail (h : Kept graph rounds resolver) (hstep : resolver.step = (next, .error e)) :
    Kept graph rounds next := by
  obtain ⟨before, after, hwaiting, rfl⟩ := step_eq_error hstep
  -- Only references have changed, and only in front of the faulty entity.
  have hnames : (before.map fun other =>
        (resolver.surroundings.keeps? other).getD other).map Pending.name =
      before.map Pending.name := by
    rw [List.map_map, List.map_inj_left]
    intro other _
    cases hkeeps : resolver.surroundings.keeps? other with
    | none => simp [hkeeps]
    | some kept => simpa [hkeeps] using name_of_keeps? hkeeps
  have hbound : ∀ after', Entity.names (bound { resolver with
        waiting := before.map (fun other =>
          (resolver.surroundings.keeps? other).getD other) ++ after' }) =
      before.map Pending.name ++ after'.map Pending.name := by
    intro after'
    rw [names_bound, List.map_append, hnames]
  have hsame : Entity.names resolver.bound = before.map Pending.name ++ after.map Pending.name := by
    rw [names_bound, hwaiting, List.map_append]
  refine ⟨h.name, h.order, ?perm, ?declared, ?bound_order, h.free_order, h.round_order,
    h.iterations, h.count⟩
  case perm =>
    have hperm := h.perm
    rw [Entity.names_append, hsame] at hperm
    rw [Entity.names_append, hbound]
    exact hperm
  case declared => exact h.declared_step hstep
  case bound_order =>
    rw [hbound, ← hsame]
    exact h.bound_order

theorem kept_of_iterated (hstart : Kept graph [] first) (h : Iterated first rounds resolver) :
    Kept graph rounds resolver := by
  induction h with
  | refl => exact hstart
  | promote _ hstep hfree ih => exact ih.promote hstep hfree
  | fail _ hstep ih => exact ih.fail hstep
  | settle _ ih => exact ⟨ih.name, ih.order, ih.perm, ih.declared, ih.bound_order, ih.free_order,
      ih.round_order, ih.iterations, ih.count⟩

/-- The free entities are never taken back or changed. -/
theorem free_prefix_of_iterated (h : Iterated first rounds resolver) :
    first.free <+: resolver.free := by
  induction h with
  | refl => exact List.prefix_refl _
  | promote _ _ hfree ih => exact hfree ▸ ih.trans (List.prefix_append _ _)
  | fail _ hstep ih =>
      obtain ⟨before, after, -, rfl⟩ := step_eq_error hstep
      exact ih
  | settle _ ih => exact ih

/-- What has become free was promoted in one of the iterations. -/
theorem names_free_of_iterated (h : Iterated first rounds resolver) :
    Entity.names resolver.free = Entity.names first.free ++ rounds.flatten := by
  induction h with
  | refl => simp
  | promote _ _ hfree ih => simp [hfree, ih]
  | fail _ hstep ih =>
      obtain ⟨before, after, -, rfl⟩ := step_eq_error hstep
      exact ih
  | settle _ ih => exact ih

/-- Where nothing is bound, everything that was declared is free. -/
theorem Kept.exists_free (h : Kept graph rounds resolver) (hnodup : graph.names.Nodup)
    (hwaiting : resolver.waiting = []) {entity : Entity} (hentity : entity ∈ graph.entities) :
    ∃ value, entity.withReference value ∈ resolver.free := by
  have hname := h.perm.mem_iff.2 (Entity.fullName_mem_names hentity)
  rw [show resolver.bound = [] by rw [bound, hwaiting]; rfl, List.append_nil] at hname
  obtain ⟨target, htarget, hfull⟩ := List.mem_map.1 hname
  obtain ⟨origin, horigin, hsame⟩ := h.declared target (List.mem_append_left _ htarget)
  obtain rfl : origin = entity := by
    refine List.inj_on_of_nodup_map hnodup horigin hentity ?_
    rw [← hfull, hsame, Entity.fullName_withReference]
  exact ⟨target.reference, hsame ▸ htarget⟩

/-! ## The account -/

/-- How a state accounts for the entities of a module, when its iterations promoted the names in
`rounds`. -/
structure Accounts (graph : ModuleGraph) (rounds : List (List String)) (resolver : Resolver) :
    Prop where
  /-- No name is both free and bound. -/
  disjoint : (Entity.names resolver.free).Disjoint (Entity.names resolver.bound)
  /-- The free and the bound names are the names of the module. -/
  covers : ∀ name, name ∈ Entity.names resolver.free ∨ name ∈ Entity.names resolver.bound ↔
    name ∈ graph.names
  /-- Every entity is found under its own name, as declared but for its reference. -/
  declared : ∀ entity ∈ graph.entities, ∃ value,
    resolver.partition.get? entity.fullName = some (entity.withReference value)
  /-- The bound names stand in the order of declaration. -/
  bound_order : (Entity.names resolver.bound).Sublist graph.names
  /-- The names that were free from the start come first, then those of each iteration. -/
  free_order : Entity.names resolver.free =
    Entity.names (graph.entities.filter Entity.isFree) ++ rounds.flatten
  /-- Each iteration promotes in the order of declaration. -/
  round_order : ∀ round ∈ rounds, round.Sublist graph.names
  iterations : resolver.stats.iterations = rounds.length
  count : resolver.stats.initiallyFree + resolver.stats.promoted = resolver.free.length
  /-- The module that the state stands for has the names of the module, in order. -/
  graph_names : resolver.partition.toGraph.names = graph.names
  /-- The module that the state stands for has the free and the bound entities and no others. -/
  graph_entities : resolver.partition.toGraph.entities.Perm (resolver.free ++ resolver.bound)

theorem Kept.accounts (h : Kept graph rounds resolver) (hvalid : graph.Valid) :
    Accounts graph rounds resolver := by
  have hnodup : (Entity.names (resolver.free ++ resolver.bound)).Nodup :=
    h.perm.nodup_iff.2 hvalid.nodup
  have hsame : resolver.partition.order = graph.names := h.order
  have horder : (Entity.names resolver.partition.entities).Perm resolver.partition.order :=
    hsame ▸ h.perm
  refine ⟨?disjoint, ?covers, ?declared, h.bound_order, h.free_order, h.round_order, h.iterations,
    h.count, ?graph_names, ?graph_entities⟩
  case disjoint =>
    rw [Entity.names_append] at hnodup
    exact List.disjoint_of_nodup_append hnodup
  case covers =>
    intro name
    rw [← List.mem_append, ← Entity.names_append]
    exact h.perm.mem_iff
  case declared =>
    intro entity hmem
    have hname : entity.fullName ∈ Entity.names (resolver.free ++ resolver.bound) :=
      h.perm.mem_iff.2 (Entity.fullName_mem_names hmem)
    obtain ⟨now, hnow⟩ := Entity.exists_find? hname
    obtain ⟨origin, horigin, heq⟩ := h.declared now (Entity.mem_of_find? hnow)
    -- Names are distinct, so what is found goes back to this declaration.
    have horigin_eq : origin = entity := by
      refine List.inj_on_of_nodup_map hvalid.nodup horigin hmem ?_
      calc origin.fullName = now.fullName := by rw [heq, Entity.fullName_withReference]
        _ = entity.fullName := Entity.fullName_of_find? hnow
    refine ⟨now.reference, ?_⟩
    rw [Partition.get?_eq_find?]
    exact hnow.trans (congrArg some (horigin_eq ▸ heq))
  case graph_names =>
    rw [Partition.names_toGraph horder, hsame]
  case graph_entities =>
    exact Partition.perm_toGraph horder (hsame ▸ hvalid.nodup)

/-- After any sequence of calls the entities of a module are accounted for, and what is free stays
free, with the same reference, in all states that follow. -/
theorem accounts_after_calls {config : Config} {catalog : Catalog} {name : String}
    {entities : List Entity} {partition : Partition}
    (hgraph : ModuleGraph.ofEntities name entities = .ok graph)
    (hpartition : graph.partition = .ok partition) (calls : List Call) :
    ∃ rounds,
      Iterated (start config catalog partition) rounds
        ((start config catalog partition).after calls) ∧
      Accounts graph rounds ((start config catalog partition).after calls) ∧
      ∀ more, ((start config catalog partition).after calls).free <+:
        ((start config catalog partition).after (calls ++ more)).free := by
  have hvalid := ModuleGraph.valid_ofEntities hgraph
  have hstart := kept_start hpartition config catalog
  obtain ⟨rounds, hrounds⟩ := exists_iterated (start config catalog partition) calls
  refine ⟨rounds, hrounds, (kept_of_iterated hstart hrounds).accounts hvalid, ?_⟩
  intro more
  obtain ⟨later, hlater⟩ := exists_iterated ((start config catalog partition).after calls) more
  rw [after_append]
  exact free_prefix_of_iterated hlater

/-- A module with a malformed reference behind one that can be settled. -/
def halted : ModuleGraph where
  name := "Main"
  entities :=
    [.value "B" (.ref "A"), .value "A" (.string "a"), .value "C" (.map [("Ref", .list [])])]

/-- The free and bound entities of `halted`. -/
def haltedPartition : Partition where
  name := "Main"
  order := ["B", "A", "C"]
  free := [.value "A" (.string "a")]
  bound := [.value "B" (.ref "A"), .value "C" (.map [("Ref", .list [])])]

/-- The resolver that starts with `halted`. -/
def haltedStart : Resolver := start {} .permissive haltedPartition

theorem accounts_after_halted_calls :
    ModuleGraph.ofEntities "Main" halted.entities = .ok halted ∧
      halted.partition = .ok haltedPartition ∧
      ∃ rounds, Iterated haltedStart rounds (haltedStart.after [.step, .run]) ∧
        Accounts halted rounds (haltedStart.after [.step, .run]) ∧
        ∀ more, (haltedStart.after [.step, .run]).free <+:
          (haltedStart.after ([.step, .run] ++ more)).free :=
  have hgraph : ModuleGraph.ofEntities "Main" halted.entities = .ok halted := by rfl
  have hpartition : halted.partition = .ok haltedPartition := by rfl
  ⟨hgraph, hpartition, accounts_after_calls hgraph hpartition [.step, .run]⟩

end Resolver

end StackLinker
