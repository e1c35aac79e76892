import StackLinker.Proofs.Value.Visits

/-!
# Traversals from the leaves up

What the walk of a traversal (`Value.Walk`) comes down to for two kinds of rules.

* A rule that records the nodes and leaves them alone meets each compound node of the tree once,
  with its path, the parts of a node before the node and from left to right.  It reaches the end
  unless there is a null in the tree; then it stops at the first one, behind the nodes in front of
  it (`Value.Records`).
* If a rule puts something else in the place of a node, the nodes above find it there
  (`Value.SeesParts`).  Its own parts are not visited, since only nodes of the tree as it was are.
-/

namespace StackLinker

variable {ν : Type}

/-- The rule that records each node with its path and leaves it alone. -/
def Rule.record : Rule (List (Path × Value)) := fun path node seen =>
  .ok (node, seen ++ [(path, node)])

theorem Rule.Makes.of_record {seen later : List (Path × Value)} {visits : List Visit}
    (h : Rule.record.Makes seen visits later) :
    later = seen ++ visits.map (fun visit => (visit.path, visit.node)) ∧
      ∀ visit ∈ visits, visit.put = visit.node := by
  induction h with
  | nil => simp
  | cons head _ ih =>
      simp only [record, Except.ok.injEq, Prod.mk.injEq] at head
      obtain ⟨hput, rfl⟩ := head
      exact ⟨by simp [ih.1], List.forall_mem_cons.2 ⟨hput.symm, ih.2⟩⟩

namespace Value

variable {rule : Rule ν} {path place : Path} {v node : Value} {notes later : ν}
  {visits : List Visit} {visit above below : Visit} {after : Position → Value}
  {look : Position → Option (Path × Value)} {failure : Option StructuralError}
  {p q position rest : Position}

/-! ## What stands in front of a visited node -/

/-- The compound nodes in front of a visited one have been visited, and there is no null among what
stands in front of it. -/
theorem Walk.of_isBefore (h : Walk rule path look notes visits after later failure)
    (hq : q ∈ visits.map (·.position)) (hpq : IsBefore p q) (hlook : look p = some (place, node)) :
    node ≠ .null ∧ (node.isCompound = true → p ∈ visits.map (·.position)) := by
  cases failure with
  | none => exact h.ended rfl p place node hlook
  | some e =>
      obtain ⟨stop, -, -, -, -, hstop⟩ := h.stopped e rfl
      obtain ⟨visit, hvisit, rfl⟩ := List.mem_map.1 hq
      obtain ⟨_, other, hother, hcompound, -⟩ := h.finds visit hvisit
      have hqstop := ((hstop _ _ _ hother).1 hcompound).1 hq
      have hpstop := hpq.trans hqstop
      obtain ⟨hvisited, hnull⟩ := hstop p place node hlook
      refine ⟨fun hnode => ?_, fun hnode => (hvisited hnode).2 hpstop⟩
      rcases hnull hnode with rfl | hbehind
      · exact isBefore_irrefl _ hpstop
      · exact isBefore_irrefl _ (hbehind.trans hpstop)

theorem getElem?_children_rebuilt (node : Value) (after : Position → Value) (position : Position)
    (i : Nat) : (node.rebuilt after position).children[i]? =
      node.children[i]?.map fun part => (part.1, after (position ++ [i])) := by
  have hkeys : (node.children.mapIdx fun i part => (part.1, after (position ++ [i]))).map (·.1) =
      node.children.map (·.1) := by
    refine List.ext_getElem? fun i => ?_
    simp [List.getElem?_mapIdx, Function.comp_def]
  rw [rebuilt, children_withChildren hkeys, List.getElem?_mapIdx]

theorem rebuilt_eq_self
    (h : ∀ i part, node.children[i]? = some part → after (position ++ [i]) = part.2) :
    node.rebuilt after position = node := by
  have hparts : (node.children.mapIdx fun i part => (part.1, after (position ++ [i]))) =
      node.children := by
    refine List.ext_getElem? fun i => ?_
    rw [List.getElem?_mapIdx]
    cases hpart : node.children[i]? with
    | none => rfl
    | some part => simp [h i part hpart]
  rw [rebuilt, hparts, withChildren_children]

/-! ## Recording -/

/-- What stands where no rule changes anything is what stood there before. -/
theorem Walk.after_eq (h : Walk rule path v.locate? notes visits after later failure)
    (halone : ∀ visit ∈ visits, visit.put = visit.node)
    (hlook : v.locate? position = some (place, node))
    (hnode : node.isCompound = true → position ∈ visits.map (·.position)) (hnull : node ≠ .null) :
    after position = node := by
  induction node using induction_on_children generalizing position place with
  | h node ih =>
      cases hcompound : node.isCompound with
      | false =>
          cases node with
          | null => exact absurd rfl hnull
          | scalar s => exact h.scalar position place s hlook
          | _ => simp [isCompound] at hcompound
      | true =>
          have hvisited := hnode hcompound
          obtain ⟨visit, hvisit, rfl⟩ := List.mem_map.1 hvisited
          obtain ⟨_, other, hother, -, -, hseen, hput⟩ := h.finds visit hvisit
          obtain ⟨rfl, rfl⟩ := Prod.mk.inj (Option.some.inj (hother.symm.trans hlook))
          rw [← hput, halone visit hvisit, hseen]
          refine rebuilt_eq_self fun i part hpart => ?_
          -- The parts come before the node, so they have been visited as well.
          have hbelow := locate?_part hlook hpart
          obtain ⟨hpartNull, hpartVisited⟩ :=
            h.of_isBefore hvisited (isBefore_append (List.cons_ne_nil i [])) hbelow
          exact ih part (List.mem_of_getElem? hpart) hbelow hpartVisited hpartNull

/-- The compound nodes of a tree at certain positions, each once and with its path, the parts of a
node before the node and from left to right. -/
structure Lists (v : Value) (root : String) (among : Position → Prop)
    (nodes : List (Path × Value)) (positions : List Position) : Prop where
  once : positions.Nodup
  ordered : positions.Pairwise IsBefore
  mem_iff : ∀ position, position ∈ positions ↔ among position ∧
    ∃ place node, v.locate? position = some (place, node) ∧ node.isCompound = true
  nodes : List.Forall₂ (fun position found => ∃ place node,
    v.locate? position = some (place, node) ∧ found = (root :: place, node)) positions nodes

/-- How a traversal ends that records nodes and leaves them alone. -/
structure Records (v : Value) (root : String)
    (progress : Progress (List (Path × Value)) Value) : Prop where
  ends_iff : progress.failure = none ↔
    ∀ position place, v.locate? position ≠ some (place, .null)
  /-- At the end all compound nodes are listed, and the tree is as before. -/
  ended : progress.failure = none → progress.result = v ∧
    ∃ positions, v.Lists root (fun _ => True) progress.notes positions
  /-- A traversal that stops does so at the first null, and the compound nodes in front of it are
  listed. -/
  stopped : ∀ e, progress.failure = some e → ∃ stop place,
    v.locate? stop = some (place, .null) ∧ e = .nullValue (root :: place) ∧
    (∀ position place, v.locate? position = some (place, .null) →
      position = stop ∨ IsBefore stop position) ∧
    ∃ positions, v.Lists root (IsBefore · stop) progress.notes positions

theorem Walk.lists {root : String} {seen : List (Path × Value)} {among : Position → Prop}
    (h : Walk Rule.record [root] v.locate? [] visits after seen failure)
    (hamong : ∀ position place node, v.locate? position = some (place, node) →
      node.isCompound = true → (position ∈ visits.map (·.position) ↔ among position)) :
    v.Lists root among seen (visits.map (·.position)) := by
  obtain ⟨hseen, halone⟩ := h.applied.of_record
  refine ⟨?once, h.ordered, fun position => ?mem, ?nodes⟩
  case once =>
    refine List.Pairwise.imp ?_ h.ordered
    rintro p _ hbefore rfl
    exact isBefore_irrefl p hbefore
  case mem =>
    constructor
    · intro hmem
      obtain ⟨visit, hvisit, rfl⟩ := List.mem_map.1 hmem
      obtain ⟨place, node, hlook, hnode, -⟩ := h.finds visit hvisit
      exact ⟨(hamong _ _ _ hlook hnode).1 hmem, place, node, hlook, hnode⟩
    · rintro ⟨hposition, place, node, hlook, hnode⟩
      exact (hamong _ _ _ hlook hnode).2 hposition
  case nodes =>
    rw [hseen, List.nil_append, List.forall₂_map_left_iff, List.forall₂_map_right_iff,
      List.forall₂_same]
    intro visit hvisit
    obtain ⟨place, node, hlook, hnode, hpath, -, hput⟩ := h.finds visit hvisit
    have hkept := h.after_eq halone hlook (fun _ => List.mem_map_of_mem hvisit)
      (by rintro rfl; simp [isCompound] at hnode)
    refine ⟨place, node, hlook, ?_⟩
    rw [hpath, ← halone visit hvisit, hput, hkept]
    rfl

theorem eq_null_of_isFault_record {changed : Value} {seen : List (Path × Value)}
    {e : StructuralError} (h : IsFault Rule.record path node changed seen e) :
    node = .null ∧ e = .nullValue path :=
  h.resolve_right fun hrefused => by simp [Rule.record] at hrefused

theorem records_traverse (v : Value) (root : String) :
    v.Records root (v.traverse Rule.record [root] []) := by
  obtain ⟨visits, after, h, hresult⟩ := exists_walk Rule.record v [root] []
  generalize v.traverse Rule.record [root] [] = progress at h hresult
  refine ⟨?ends, fun hnone => ?ended, fun e he => ?stopped⟩
  case ends =>
    constructor
    · intro hnone position place hlook
      exact (h.ended hnone position place .null hlook).1 rfl
    · intro hall
      by_contra hsome
      obtain ⟨e, he⟩ := Option.ne_none_iff_exists'.1 hsome
      obtain ⟨stop, place, node, hlook, hfault, -⟩ := h.stopped e he
      obtain ⟨rfl, -⟩ := eq_null_of_isFault_record hfault
      exact hall stop place hlook
  case ended =>
    have hended := h.ended hnone
    refine ⟨?_, _, h.lists fun position place node hlook hnode =>
      iff_of_true ((hended position place node hlook).2 hnode) trivial⟩
    obtain ⟨hnull, hvisited⟩ := hended [] [] v rfl
    rw [hresult hnone, h.after_eq h.applied.of_record.2 rfl hvisited hnull]
  case stopped =>
    obtain ⟨stop, place, node, hlook, hfault, hothers⟩ := h.stopped e he
    obtain ⟨rfl, rfl⟩ := eq_null_of_isFault_record hfault
    exact ⟨stop, place, hlook, rfl, fun p place' hp => (hothers p place' .null hp).2 rfl, _,
      h.lists fun p place' node hp => (hothers p place' node hp).1⟩

/-! ## Replacing -/

/-- What is put in the place of a node stands there when a node above is visited.  Only a node
between the two that has been replaced as well takes what stood below it with it. -/
def SeesParts (visits : List Visit) : Prop :=
  ∀ above ∈ visits, ∀ below ∈ visits, ∀ rest, rest ≠ [] →
    below.position = above.position ++ rest →
    (∀ visit ∈ visits, ∀ front back, front ≠ [] → back ≠ [] → rest = front ++ back →
      visit.position = above.position ++ front → visit.put = visit.node) →
    ∃ place, above.node.locate? rest = some (place, below.put)

theorem Walk.seesParts (h : Walk rule path v.locate? notes visits after later failure) :
    SeesParts visits := by
  intro above habove below hbelow rest
  induction rest generalizing above with
  | nil => exact fun hnil => absurd rfl hnil
  | cons i rest ih =>
      intro _ hposition halone
      obtain ⟨place, node, hlook, -, -, hseen, -⟩ := h.finds above habove
      obtain ⟨_, lower, hlower, hcompound, -, -, hput⟩ := h.finds below hbelow
      -- The way down to the lower node starts with a part of the upper one.
      rw [hposition, locate?_append, hlook] at hlower
      simp only [Option.bind_some, locate?, Option.map_eq_some_iff,
        Option.bind_eq_some_iff] at hlower
      obtain ⟨_, ⟨part, hpart, found, hfound, rfl⟩, hlower⟩ := hlower
      rw [hseen, locate?, getElem?_children_rebuilt, hpart]
      simp only [Option.map_some, Option.bind_some]
      have hpartLook := locate?_part hlook hpart
      cases rest with
      | nil => exact ⟨[part.1], by rw [hput, hposition]; rfl⟩
      | cons j rest =>
          -- The part has been visited, and left alone.
          have hvisited := (h.of_isBefore (List.mem_map_of_mem habove)
            (isBefore_append (List.cons_ne_nil i [])) hpartLook).2 (isCompound_of_locate? hfound)
          obtain ⟨between, hbetween, hbetweenPosition⟩ := List.mem_map.1 hvisited
          obtain ⟨_, _, _, _, _, _, hbetweenPut⟩ := h.finds between hbetween
          have hkept := halone between hbetween [i] (j :: rest) (by simp) (by simp) rfl
            hbetweenPosition
          obtain ⟨place', hfound'⟩ := ih between hbetween (by simp)
            (by rw [hposition, hbetweenPosition]; simp)
            (fun visit hvisit front back hfront hback hrest hfrontPosition =>
              halone visit hvisit (i :: front) back (by simp) hback (by rw [hrest]; rfl)
                (by rw [hfrontPosition, hbetweenPosition]; simp))
          rw [← hbetweenPosition, ← hbetweenPut, hkept, hfound']
          exact ⟨_, rfl⟩

/-- A traversal with a rule that records nodes and leaves them alone meets each compound node once,
from the leaves up, and stops at the first null.  With any other rule, each visit is to a node of
the tree as it was, with what has been put in the places of its parts. -/
theorem traverse_in_postorder (v : Value) (root : String) :
    v.Records root (v.traverse Rule.record [root] []) ∧
      ∀ {ν : Type} (rule : Rule ν) (notes : ν), ∃ visits after,
        Walk rule [root] v.locate? notes visits after (v.traverse rule [root] notes).notes
          (v.traverse rule [root] notes).failure ∧
        ((v.traverse rule [root] notes).failure = none →
          (v.traverse rule [root] notes).result = after []) ∧
        SeesParts visits := by
  refine ⟨records_traverse v root, fun rule notes => ?_⟩
  obtain ⟨visits, after, h, hresult⟩ := exists_walk rule v [root] notes
  exact ⟨visits, after, h, hresult, h.seesParts⟩

/-- Empty maps are visited, scalars are not. -/
example : ((map [("a", .list [.map [("b", .string "x")]]), ("c", .map [])]).traverse Rule.record
    ["root"] []).notes.map (·.1) =
    [["root", "a", "0"], ["root", "a"], ["root", "c"], ["root"]] := by
  decide +kernel

end Value

end StackLinker
