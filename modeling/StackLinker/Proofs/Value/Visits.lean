import StackLinker.Proofs.Value.Positions

/-!
# Which nodes a traversal visits

A traversal applies its rule to the compound nodes of a tree from the leaves up.  `Value.Walk` says
to which nodes, in which order, and what the rule finds there: the node of the tree as it was, with
what the rule has put in the places of its parts.  So what is put in the place of a node is seen by
the nodes above it and is not entered itself; all positions are positions of the tree as it was.

This holds for every rule, also for one that refuses a node, and for a tree with nulls.  The
traversal then stops, and exactly the compound nodes in front of the place where it stops have been
visited.

## Strategy

The walks over the parts of a node are put together from left to right.  A walk over entries has
positions whose first number says which entry; another entry in front moves it by one
(`Value.shift`).  The node itself comes last.
-/

namespace StackLinker

variable {ν : Type}

/-- An application of a rule in the course of a traversal. -/
structure Visit where
  position : Position
  path : Path
  /-- The node as the rule finds it. -/
  node : Value
  /-- What the rule puts in the place of the node. -/
  put : Value

/-- The same visit, with the position given from another node. -/
def Visit.moved (move : Position → Position) (visit : Visit) : Visit :=
  { visit with position := move visit.position }

/-- A rule is applied one time after the other, each time with the notes of the time before. -/
inductive Rule.Makes (rule : Rule ν) : ν → List Visit → ν → Prop
  | nil (notes : ν) : Makes rule notes [] notes
  | cons {visit : Visit} {rest : List Visit} {notes between later : ν}
      (head : rule visit.path visit.node notes = .ok (visit.put, between))
      (tail : Makes rule between rest later) : Makes rule notes (visit :: rest) later

namespace Rule.Makes

variable {rule : Rule ν} {notes between later : ν} {visits others : List Visit}

theorem append (h : rule.Makes notes visits between) (hothers : rule.Makes between others later) :
    rule.Makes notes (visits ++ others) later := by
  induction h with
  | nil => exact hothers
  | cons head _ ih => exact .cons head (ih hothers)

theorem moved (h : rule.Makes notes visits later) (move : Position → Position) :
    rule.Makes notes (visits.map (Visit.moved move)) later := by
  induction h with
  | nil notes => exact .nil notes
  | cons head _ ih => exact .cons head ih

end Rule.Makes

namespace Value

variable {rule : Rule ν} {path : Path} {v x node : Value} {notes between later : ν}
  {visits others : List Visit} {key : String} {rest : Fields Value}
  {after below : Position → Value} {failure : Option StructuralError} {e : StructuralError}

/-- A node with what stands in the places of its parts afterwards. -/
def rebuilt (after : Position → Value) (position : Position) (node : Value) : Value :=
  node.withChildren (node.children.mapIdx fun i part => (part.1, after (position ++ [i])))

/-- A visit is to a compound node of the tree as it was, with what stands in the places of its parts
afterwards. -/
def Finds (path : Path) (look : Position → Option (Path × Value)) (after : Position → Value)
    (visit : Visit) : Prop :=
  ∃ place node, look visit.position = some (place, node) ∧ node.isCompound = true ∧
    visit.path = path ++ place ∧ visit.node = node.rebuilt after visit.position ∧
    visit.put = after visit.position

/-- What ends a traversal at a node: the node is null, or the rule refuses it once its parts are
changed. -/
def IsFault (rule : Rule ν) (path : Path) (node changed : Value) (notes : ν)
    (e : StructuralError) : Prop :=
  (node = .null ∧ e = .nullValue path) ∨
    (node.isCompound = true ∧ rule path changed notes = .error e)

/-- The course of a traversal.  `look` finds what stands at a position before it, with the segments
that lead there from `path` on; `after` is what stands there once the traversal has left it. -/
structure Walk (rule : Rule ν) (path : Path) (look : Position → Option (Path × Value)) (notes : ν)
    (visits : List Visit) (after : Position → Value) (later : ν)
    (failure : Option StructuralError) : Prop where
  applied : rule.Makes notes visits later
  ordered : (visits.map (·.position)).Pairwise IsBefore
  finds : ∀ visit ∈ visits, Finds path look after visit
  scalar : ∀ position place s, look position = some (place, .scalar s) →
    after position = .scalar s
  /-- A traversal that reaches its end has met no null and has visited every compound node. -/
  ended : failure = none → ∀ position place node, look position = some (place, node) →
    node ≠ .null ∧ (node.isCompound = true → position ∈ visits.map (·.position))
  /-- A traversal that stops has visited the compound nodes in front of the place where it stops,
  and there is no null among what stands in front of it. -/
  stopped : ∀ e, failure = some e → ∃ stop place node, look stop = some (place, node) ∧
    IsFault rule (path ++ place) node (node.rebuilt after stop) later e ∧
    ∀ position place node, look position = some (place, node) →
      (node.isCompound = true → (position ∈ visits.map (·.position) ↔ IsBefore position stop)) ∧
      (node = .null → position = stop ∨ IsBefore stop position)

/-! ## Putting walks together -/

theorem Walk.of_null : Walk rule path (locate? .null) notes [] (fun _ => .null) notes
    (some (.nullValue path)) := by
  have hroot : ∀ {position place node}, locate? .null position = some (place, node) →
      position = [] ∧ place = [] ∧ node = .null := by
    intro position place node h
    cases position with
    | nil => simpa [locate?, eq_comm] using h
    | cons i rest => simp [locate?, children] at h
  refine ⟨.nil notes, .nil, by simp, fun position place s h => ?_, by simp, fun e he => ?_⟩
  · simpa using (hroot h).2.2
  · refine ⟨[], [], .null, rfl, Or.inl ⟨rfl, by simpa using he.symm⟩,
      fun position place node h => ?_⟩
    obtain ⟨rfl, rfl, rfl⟩ := hroot h
    simp [isCompound]

theorem Walk.of_scalar (s : Scalar) : Walk rule path (locate? (.scalar s)) notes []
    (fun _ => .scalar s) notes none := by
  have hroot : ∀ {position place node}, locate? (.scalar s) position = some (place, node) →
      node = .scalar s := by
    intro position place node h
    cases position with
    | nil => simp_all [locate?]
    | cons i rest => simp [locate?, children] at h
  refine ⟨.nil notes, .nil, by simp, fun position place s' h => (hroot h).symm,
    fun _ position place node h => ?_, by simp⟩
  rw [hroot h]
  simp [isCompound]

theorem Walk.of_nil : Walk rule path (Fields.locate? []) notes [] (fun _ => .null) notes none := by
  have hnone : ∀ position, Fields.locate? [] position = none := by
    intro position
    cases position <;> simp [Fields.locate?]
  exact ⟨.nil notes, .nil, by simp, by simp [hnone], by simp [hnone], by simp⟩

/-- What stands at the positions below entries, the first of which is given apart. -/
def joined (first others : Position → Value) : Position → Value
  | [] => .null
  | 0 :: position => first position
  | (i + 1) :: position => others (i :: position)

/-- What stands at the positions below entries that no traversal has reached. -/
def untouched (entries : Fields Value) (position : Position) : Value :=
  ((entries.locate? position).map (·.2)).getD .null

@[simp] theorem locate?_entries_nil (entries : Fields Value) : entries.locate? [] = none := rfl

theorem locate?_entries_zero (key : String) (x : Value) (rest : Fields Value)
    (position : Position) :
    Fields.locate? ((key, x) :: rest) (0 :: position) =
      (x.locate? position).map fun found => (key :: found.1, found.2) := rfl

theorem locate?_entries_shift (entry : String × Value) (rest : Fields Value)
    (position : Position) :
    Fields.locate? (entry :: rest) (shift position) = rest.locate? position := by
  cases position <;> rfl

theorem rebuilt_zero (first others : Position → Value) (position : Position) (node : Value) :
    node.rebuilt (joined first others) (0 :: position) = node.rebuilt first position := rfl

theorem rebuilt_shift (first others : Position → Value) {position : Position}
    (hposition : position ≠ []) (node : Value) :
    node.rebuilt (joined first others) (shift position) = node.rebuilt others position := by
  obtain ⟨i, rest, rfl⟩ := List.exists_cons_of_ne_nil hposition
  rfl

theorem ne_nil_of_locate? {entries : Fields Value} {position : Position} {found : Path × Value}
    (h : entries.locate? position = some found) : position ≠ [] := by
  rintro rfl
  simp at h

/-- A position below entries leads to the first entry or to one of the others. -/
theorem locate?_cons_cases {found : Path × Value} {position : Position}
    (h : Fields.locate? ((key, x) :: rest) position = some found) :
    (∃ p place, position = 0 :: p ∧ found.1 = key :: place ∧
      x.locate? p = some (place, found.2)) ∨
    ∃ p, position = shift p ∧ rest.locate? p = some found := by
  rcases position with _ | ⟨_ | i, p⟩
  · simp at h
  · rw [locate?_entries_zero] at h
    obtain ⟨⟨place, node⟩, hx, rfl⟩ := Option.map_eq_some_iff.1 h
    exact Or.inl ⟨p, place, rfl, rfl, hx⟩
  · exact Or.inr ⟨i :: p, rfl, h⟩

theorem shift_injective : Function.Injective shift := by
  intro p q h
  cases p <;> cases q <;> simp_all [shift]

theorem shift_ne_zero (p q : Position) : shift p ≠ 0 :: q := by
  cases p <;> simp [shift]

theorem map_position_moved (move : Position → Position) (visits : List Visit) :
    (visits.map (Visit.moved move)).map (·.position) = (visits.map (·.position)).map move := by
  simp [Visit.moved, Function.comp_def]

/-- The positions of visits below entries, those below the first entry in front. -/
def joinedPositions (first others : List Position) : List Position :=
  first.map (0 :: ·) ++ others.map shift

theorem zero_mem_joinedPositions_iff {first others : List Position} {p : Position} :
    0 :: p ∈ joinedPositions first others ↔ p ∈ first := by
  simp [joinedPositions, shift_ne_zero]

theorem shift_mem_joinedPositions_iff {first others : List Position} {p : Position} :
    shift p ∈ joinedPositions first others ↔ p ∈ others := by
  simp [joinedPositions, List.mem_map_of_injective shift_injective, (shift_ne_zero p _).symm]

theorem pairwise_joinedPositions {first others : List Position} (hfirst : first.Pairwise IsBefore)
    (hothers : others.Pairwise IsBefore) : (joinedPositions first others).Pairwise IsBefore := by
  refine List.pairwise_append.2 ⟨?_, ?_, ?_⟩
  · exact hfirst.map _ fun _ _ => isBefore_cons_iff.2
  · exact hothers.map _ fun _ _ => isBefore_shift_iff.2
  · intro p hp q hq
    obtain ⟨p, -, rfl⟩ := List.mem_map.1 hp
    obtain ⟨q, -, rfl⟩ := List.mem_map.1 hq
    exact isBefore_zero_shift

theorem Finds.zero {visit : Visit} (h : Finds (path.push key) x.locate? after visit)
    (rest : Fields Value) (below : Position → Value) :
    Finds path (Fields.locate? ((key, x) :: rest)) (joined after below)
      (visit.moved (0 :: ·)) := by
  obtain ⟨place, node, hlook, hnode, hpath, hseen, hput⟩ := h
  refine ⟨key :: place, node, ?_, hnode, ?_, hseen, hput⟩
  · simp [Visit.moved, locate?_entries_zero, hlook]
  · simp [Visit.moved, hpath, Path.push_append]

theorem Finds.shift {visit : Visit} (h : Finds path rest.locate? below visit)
    (entry : String × Value) (after : Position → Value) :
    Finds path (Fields.locate? (entry :: rest)) (joined after below) (visit.moved shift) := by
  obtain ⟨place, node, hlook, hnode, hpath, hseen, hput⟩ := h
  have hne := ne_nil_of_locate? hlook
  refine ⟨place, node, ?_, hnode, hpath, ?_, ?_⟩
  · simpa [Visit.moved, locate?_entries_shift] using hlook
  · simpa [Visit.moved, rebuilt_shift after below hne] using hseen
  · obtain ⟨i, p, hposition⟩ := List.exists_cons_of_ne_nil hne
    simpa [Visit.moved, hposition, Value.shift, joined] using hput

/-- A walk over the first entry goes on with a walk over the others. -/
theorem Walk.cons (hx : Walk rule (path.push key) x.locate? notes visits after between none)
    (hrest : Walk rule path rest.locate? between others below later failure) :
    Walk rule path (Fields.locate? ((key, x) :: rest)) notes
      (visits.map (Visit.moved (0 :: ·)) ++ others.map (Visit.moved shift)) (joined after below)
      later failure := by
  have hpositions : (visits.map (Visit.moved (0 :: ·)) ++ others.map (Visit.moved shift)).map
      (·.position) = joinedPositions (visits.map (·.position)) (others.map (·.position)) := by
    rw [List.map_append, map_position_moved, map_position_moved, joinedPositions]
  refine ⟨(hx.applied.moved _).append (hrest.applied.moved _), ?ordered, ?finds, ?scalar, ?ended,
    ?stopped⟩
  case ordered =>
    rw [hpositions]
    exact pairwise_joinedPositions hx.ordered hrest.ordered
  case finds =>
    intro visit hvisit
    rcases List.mem_append.1 hvisit with hmoved | hmoved
    · obtain ⟨visit, hmem, rfl⟩ := List.mem_map.1 hmoved
      exact (hx.finds visit hmem).zero rest below
    · obtain ⟨visit, hmem, rfl⟩ := List.mem_map.1 hmoved
      exact (hrest.finds visit hmem).shift (key, x) after
  case scalar =>
    intro position place s h
    rcases locate?_cons_cases h with ⟨p, place, rfl, -, hp⟩ | ⟨p, rfl, hp⟩
    · exact hx.scalar p place s hp
    · obtain ⟨i, p, rfl⟩ := List.exists_cons_of_ne_nil (ne_nil_of_locate? hp)
      exact hrest.scalar _ _ s hp
  case ended =>
    intro hnone position place node h
    rw [hpositions]
    rcases locate?_cons_cases h with ⟨p, place, rfl, -, hp⟩ | ⟨p, rfl, hp⟩
    · rw [zero_mem_joinedPositions_iff]
      exact hx.ended rfl p place node hp
    · rw [shift_mem_joinedPositions_iff]
      exact hrest.ended hnone p _ node hp
  case stopped =>
    intro e he
    obtain ⟨stop, place, node, hlook, hfault, hothers⟩ := hrest.stopped e he
    have hne := ne_nil_of_locate? hlook
    refine ⟨shift stop, place, node, by rwa [locate?_entries_shift], ?_, fun p place node h => ?_⟩
    · rwa [rebuilt_shift after below hne]
    · rw [hpositions]
      rcases locate?_cons_cases h with ⟨p, place, rfl, -, hp⟩ | ⟨p, rfl, hp⟩
      · -- The walk over the first entry has reached its end.
        obtain ⟨hnull, hvisited⟩ := hx.ended rfl p place node hp
        refine ⟨fun hnode => ?_, fun h => absurd h hnull⟩
        rw [zero_mem_joinedPositions_iff]
        exact iff_of_true (hvisited hnode) isBefore_zero_shift
      · rw [shift_mem_joinedPositions_iff, isBefore_shift_iff, isBefore_shift_iff,
          shift_injective.eq_iff]
        exact hothers p _ node hp

/-- A walk that stops below the first entry does not reach the others. -/
theorem Walk.halt (hx : Walk rule (path.push key) x.locate? notes visits after later (some e)) :
    Walk rule path (Fields.locate? ((key, x) :: rest)) notes (visits.map (Visit.moved (0 :: ·)))
      (joined after (untouched rest)) later (some e) := by
  have hpositions : (visits.map (Visit.moved (0 :: ·))).map (·.position) =
      joinedPositions (visits.map (·.position)) [] := by
    rw [map_position_moved, joinedPositions, List.map_nil, List.append_nil]
  refine ⟨hx.applied.moved _, ?ordered, ?finds, ?scalar, by simp, ?stopped⟩
  case ordered =>
    rw [hpositions]
    exact pairwise_joinedPositions hx.ordered .nil
  case finds =>
    intro visit hvisit
    obtain ⟨visit, hmem, rfl⟩ := List.mem_map.1 hvisit
    exact (hx.finds visit hmem).zero rest (untouched rest)
  case scalar =>
    intro position place s h
    rcases locate?_cons_cases h with ⟨p, place, rfl, -, hp⟩ | ⟨p, rfl, hp⟩
    · exact hx.scalar p place s hp
    · obtain ⟨i, p, rfl⟩ := List.exists_cons_of_ne_nil (ne_nil_of_locate? hp)
      simp [shift, joined, untouched, hp]
  case stopped =>
    intro e' he
    obtain ⟨stop, place, node, hlook, hfault, hothers⟩ := hx.stopped e' he
    refine ⟨0 :: stop, key :: place, node, by simp [locate?_entries_zero, hlook], ?_,
      fun p place node h => ?_⟩
    · rwa [rebuilt_zero, ← Path.push_append]
    · rw [hpositions]
      rcases locate?_cons_cases h with ⟨p, place, rfl, -, hp⟩ | ⟨p, rfl, -⟩
      · rw [zero_mem_joinedPositions_iff, isBefore_cons_iff, isBefore_cons_iff,
          List.cons_inj_right]
        exact hothers p place node hp
      · -- The other entries are behind the place where the walk stops.
        rw [shift_mem_joinedPositions_iff]
        exact ⟨fun _ => iff_of_false (by simp) not_isBefore_shift_zero,
          fun _ => Or.inr isBefore_zero_shift⟩

/-! ### From the parts of a node to the node -/

/-- What stands at the positions below a node, with what stands in the place of the node itself. -/
def crowned (top : Value) (below : Position → Value) : Position → Value
  | [] => top
  | i :: position => below (i :: position)

theorem locate?_of_ne_nil {position : Position} (h : position ≠ []) :
    v.locate? position = v.children.locate? position := by
  obtain ⟨i, rest, rfl⟩ := List.exists_cons_of_ne_nil h
  rfl

/-- A position below a node is the node itself or a position below its parts. -/
theorem locate?_cases {found : Path × Value} {position : Position}
    (h : v.locate? position = some found) :
    (position = [] ∧ found = ([], v)) ∨ v.children.locate? position = some found := by
  cases position with
  | nil => exact Or.inl ⟨rfl, (Option.some.inj h).symm⟩
  | cons i rest => exact Or.inr h

theorem Finds.of_children {visit : Visit} (h : Finds path v.children.locate? below visit)
    (top : Value) :
    Finds path v.locate? below visit ∧ Finds path v.locate? (crowned top below) visit := by
  obtain ⟨place, node, hlook, hnode, hpath, hseen, hput⟩ := h
  have hne := ne_nil_of_locate? hlook
  have hlook' := (locate?_of_ne_nil hne).trans hlook
  refine ⟨⟨place, node, hlook', hnode, hpath, hseen, hput⟩, place, node, hlook', hnode, hpath, ?_⟩
  obtain ⟨i, rest, hposition⟩ := List.exists_cons_of_ne_nil hne
  rw [hposition] at hseen hput ⊢
  exact ⟨hseen, hput⟩

theorem Walk.nil_notMem (h : Walk rule path v.children.locate? notes visits below later failure) :
    [] ∉ visits.map (·.position) := by
  intro hmem
  obtain ⟨visit, hvisit, hposition⟩ := List.mem_map.1 hmem
  obtain ⟨place, node, hlook, -⟩ := h.finds visit hvisit
  exact ne_nil_of_locate? hlook hposition

theorem Walk.scalar_below (hv : v.isCompound = true)
    (h : Walk rule path v.children.locate? notes visits below later failure)
    {position : Position} {place : Path} {s : Scalar}
    (hlook : v.locate? position = some (place, .scalar s)) :
    position ≠ [] ∧ below position = .scalar s := by
  rcases locate?_cases hlook with ⟨rfl, hroot⟩ | hbelow
  · simp [← (Prod.mk.inj hroot).2, isCompound] at hv
  · exact ⟨ne_nil_of_locate? hbelow, h.scalar _ _ s hbelow⟩

/-- A walk that stops below a node does not visit the node. -/
theorem Walk.of_part (hv : v.isCompound = true)
    (h : Walk rule path v.children.locate? notes visits below later (some e)) :
    Walk rule path v.locate? notes visits below later (some e) := by
  refine ⟨h.applied, h.ordered, fun visit hvisit => ((h.finds visit hvisit).of_children v).1,
    fun position place s hlook => (h.scalar_below hv hlook).2, by simp, fun e' he => ?_⟩
  obtain ⟨stop, place, node, hlook, hfault, hothers⟩ := h.stopped e' he
  have hne := ne_nil_of_locate? hlook
  refine ⟨stop, place, node, (locate?_of_ne_nil hne).trans hlook, hfault, fun p place node hp => ?_⟩
  rcases locate?_cases hp with ⟨rfl, hroot⟩ | hbelow
  · obtain ⟨rfl, rfl⟩ := Prod.mk.inj hroot
    refine ⟨fun _ => iff_of_false h.nil_notMem not_isBefore_nil, fun hnull => ?_⟩
    simp [hnull, isCompound] at hv
  · exact hothers p place node hbelow

/-- A walk stops at a node that the rule refuses. -/
theorem Walk.of_refused (hv : v.isCompound = true)
    (h : Walk rule path v.children.locate? notes visits below later none)
    (hrule : rule path (v.rebuilt below []) later = .error e) :
    Walk rule path v.locate? notes visits below later (some e) := by
  refine ⟨h.applied, h.ordered, fun visit hvisit => ((h.finds visit hvisit).of_children v).1,
    fun position place s hlook => (h.scalar_below hv hlook).2, by simp, fun e' he => ?_⟩
  obtain rfl := Option.some.inj he
  refine ⟨[], [], v, rfl, Or.inr ⟨hv, by rwa [List.append_nil]⟩, fun p place node hp => ?_⟩
  rcases locate?_cases hp with ⟨rfl, hroot⟩ | hbelow
  · exact ⟨fun _ => iff_of_false h.nil_notMem not_isBefore_nil, fun _ => Or.inl rfl⟩
  · obtain ⟨hnull, hvisited⟩ := h.ended rfl p place node hbelow
    have hbefore := isBefore_nil (ne_nil_of_locate? hbelow)
    exact ⟨fun hnode => iff_of_true (hvisited hnode) hbefore, fun h => absurd h hnull⟩

/-- A walk over the parts of a node ends with the visit to the node. -/
theorem Walk.of_put (hv : v.isCompound = true)
    (h : Walk rule path v.children.locate? notes visits below between none) {w : Value}
    (hrule : rule path (v.rebuilt below []) between = .ok (w, later)) :
    Walk rule path v.locate? notes
      (visits ++ [{ position := [], path := path, node := v.rebuilt below [], put := w }])
      (crowned w below) later none := by
  refine ⟨h.applied.append (.cons hrule (.nil later)), ?ordered, ?finds, ?scalar, ?ended, by simp⟩
  case ordered =>
    rw [List.map_append, List.pairwise_append]
    refine ⟨h.ordered, by simp, fun p hp q hq => ?_⟩
    obtain rfl : q = [] := by simpa using hq
    have hne : p ≠ [] := fun hnil => h.nil_notMem (hnil ▸ hp)
    exact isBefore_nil hne
  case finds =>
    intro visit hvisit
    rcases List.mem_append.1 hvisit with hmem | hmem
    · exact ((h.finds visit hmem).of_children w).2
    · obtain rfl := List.mem_singleton.1 hmem
      exact ⟨[], v, rfl, hv, (List.append_nil path).symm, rfl, rfl⟩
  case scalar =>
    intro position place s hlook
    obtain ⟨hne, hscalar⟩ := h.scalar_below hv hlook
    obtain ⟨i, rest, rfl⟩ := List.exists_cons_of_ne_nil hne
    exact hscalar
  case ended =>
    intro _ p place node hp
    rw [List.map_append, List.mem_append]
    rcases locate?_cases hp with ⟨rfl, hroot⟩ | hbelow
    · obtain ⟨rfl, rfl⟩ := Prod.mk.inj hroot
      refine ⟨fun hnull => ?_, fun _ => Or.inr (by simp)⟩
      simp [hnull, isCompound] at hv
    · obtain ⟨hnull, hvisited⟩ := h.ended rfl p place node hbelow
      exact ⟨hnull, fun hnode => Or.inl (hvisited hnode)⟩

/-! ## Every traversal is a walk -/

private theorem exists_walk_entries {entries : Fields Value}
    (h : ∀ entry ∈ entries, ∀ path notes, ∃ visits after,
      Walk rule path entry.2.locate? notes visits after (entry.2.traverse rule path notes).notes
        (entry.2.traverse rule path notes).failure ∧
      ((entry.2.traverse rule path notes).failure = none →
        (entry.2.traverse rule path notes).result = after []))
    (path : Path) (notes : ν) :
    ∃ visits after, Walk rule path entries.locate? notes visits after
        (traverseEntries rule path entries notes).notes
        (traverseEntries rule path entries notes).failure ∧
      ((traverseEntries rule path entries notes).failure = none →
        (traverseEntries rule path entries notes).result =
          entries.mapIdx fun i entry => (entry.1, after [i])) := by
  induction entries generalizing notes with
  | nil => exact ⟨[], _, .of_nil, fun _ => rfl⟩
  | cons entry rest ih =>
      obtain ⟨key, x⟩ := entry
      obtain ⟨visits, after, hx, hresult⟩ := h (key, x) List.mem_cons_self (path.push key) notes
      simp only at hx hresult
      simp only [traverseEntries]
      cases hfailure : (traverse rule (path.push key) x notes).failure with
      | some e =>
          rw [hfailure] at hx
          exact ⟨_, _, hx.halt, by simp⟩
      | none =>
          rw [hfailure] at hx
          obtain ⟨others, below, hrest, hdone⟩ := ih
            (fun entry hentry => h entry (List.mem_cons_of_mem _ hentry))
            (traverse rule (path.push key) x notes).notes
          refine ⟨_, _, hx.cons hrest, fun hnone => ?_⟩
          simp [Progress.map, hdone hnone, hresult hfailure, List.mapIdx_cons, joined]

/-- A traversal visits the compound nodes of a tree from the leaves up, whatever the rule makes of
them, and ends with what it has put in the place of the root. -/
theorem exists_walk (rule : Rule ν) (v : Value) (path : Path) (notes : ν) :
    ∃ visits after, Walk rule path v.locate? notes visits after (v.traverse rule path notes).notes
        (v.traverse rule path notes).failure ∧
      ((v.traverse rule path notes).failure = none →
        (v.traverse rule path notes).result = after []) := by
  induction v using induction_on_children generalizing path notes with
  | h v ih =>
      cases hv : v.isCompound with
      | false =>
          cases v with
          | null => exact ⟨[], _, .of_null, by simp [traverse]⟩
          | scalar s => exact ⟨[], _, .of_scalar s, fun _ => rfl⟩
          | _ => simp [isCompound] at hv
      | true =>
          obtain ⟨visits, below, h, hresult⟩ := exists_walk_entries ih path notes
          rw [traverse_compound hv]
          rcases hparts : traverseEntries rule path v.children notes with ⟨parts, between, failure⟩
          rw [hparts] at h hresult
          cases failure with
          | some e => exact ⟨_, _, h.of_part hv, by simp [Progress.map, Progress.visit]⟩
          | none =>
              have hrebuilt : v.withChildren parts = v.rebuilt below [] := by
                rw [show parts = _ from hresult rfl]
                rfl
              cases hrule : rule path (v.rebuilt below []) between with
              | error e =>
                  simp only [Progress.map, Progress.visit, hrebuilt, hrule]
                  exact ⟨_, _, h.of_refused hv hrule, by simp⟩
              | ok put =>
                  simp only [Progress.map, Progress.visit, hrebuilt, hrule]
                  exact ⟨_, _, h.of_put hv hrule, fun _ => rfl⟩

end Value

end StackLinker
