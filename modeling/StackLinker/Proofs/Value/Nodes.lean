import StackLinker.Form

/-!
# Nodes of a value

A value is a tree whose inner nodes are lists, maps and records.  `children` lists the parts of a
node under the segments that lead to them, so that the three kinds of inner nodes can be treated
alike: `induction_on_children` is induction over the tree in this form, and `nodes` are all values
that stand somewhere in the tree, the tree itself included.

A map whose single key is reserved is the only kind of node that recognition looks into
(`recognize?_of_not_isReserved`), and since a node keeps its keys when its parts change
(`isReserved_withChildren`), rewriting the parts of an ordinary node leaves it ordinary.
-/

namespace StackLinker

namespace Fields

variable {α : Type}

/-- Whether a single entry with a reserved key makes up the whole map. -/
def isReserved : Fields α → Bool
  | [(key, _)] => decide (key ∈ [Form.refKey, Form.getAttKey, Form.subKey])
  | _ => false

theorem isReserved_congr {a b : Fields α} (h : a.map (·.1) = b.map (·.1)) :
    isReserved a = isReserved b := by
  rcases a with _ | ⟨⟨k, x⟩, _ | ⟨_, _⟩⟩ <;> rcases b with _ | ⟨⟨l, y⟩, _ | ⟨_, _⟩⟩ <;>
    simp_all [isReserved]

end Fields

namespace Value

/-- Whether the value is an inner node. -/
def isCompound : Value → Bool
  | .null | .scalar _ => false
  | _ => true

/-- The items of a list under their indices, the first of which is given. -/
def indexed : Nat → List Value → Fields Value
  | _, [] => []
  | index, x :: xs => (Nat.repr index, x) :: indexed (index + 1) xs

/-- The parts of a node under the segments that lead to them. -/
def children : Value → Fields Value
  | .null | .scalar _ => []
  | .list items => indexed 0 items
  | .map entries => entries
  | .record _ metadata properties => [("Metadata", metadata), ("Properties", properties)]

/-- The node with other parts in the place of its own. -/
def withChildren : Value → Fields Value → Value
  | .list _, parts => .list (parts.map (·.2))
  | .map _, parts => .map parts
  | .record header _ _, [(_, metadata), (_, properties)] => .record header metadata properties
  | node, _ => node

@[simp] theorem map_snd_indexed (index : Nat) (items : List Value) :
    (indexed index items).map (·.2) = items := by
  induction items generalizing index with
  | nil => rfl
  | cons x xs ih => simp [indexed, ih]

/-- The parts of a list are its items. -/
theorem forall_children_list {items : List Value} {P : Value → Prop} :
    (∀ child ∈ (list items).children, P child.2) ↔ ∀ item ∈ items, P item := by
  have hsnd : (list items).children.map (·.2) = items := map_snd_indexed 0 items
  calc (∀ child ∈ (list items).children, P child.2)
      ↔ ∀ item ∈ (list items).children.map (·.2), P item := List.forall_mem_map.symm
    _ ↔ ∀ item ∈ items, P item := by rw [hsnd]

theorem exists_children_list {items : List Value} {P : Value → Prop} :
    (∃ child ∈ (list items).children, P child.2) ↔ ∃ item ∈ items, P item := by
  have hsnd : (list items).children.map (·.2) = items := map_snd_indexed 0 items
  constructor
  · rintro ⟨child, hchild, h⟩
    exact ⟨child.2, hsnd ▸ List.mem_map_of_mem hchild, h⟩
  · rintro ⟨item, hitem, h⟩
    rw [← hsnd] at hitem
    obtain ⟨child, hchild, rfl⟩ := List.mem_map.1 hitem
    exact ⟨child, hchild, h⟩

theorem indexed_map_snd {index : Nat} {items : List Value} {parts : Fields Value}
    (h : parts.map (·.1) = (indexed index items).map (·.1)) :
    indexed index (parts.map (·.2)) = parts := by
  induction items generalizing index parts with
  | nil =>
      have hnil : parts = [] := by simpa [indexed] using h
      simp [hnil, indexed]
  | cons x xs ih =>
      cases parts with
      | nil => simp [indexed] at h
      | cons part rest =>
          simp only [indexed, List.map_cons, List.cons.injEq] at h
          simp only [List.map_cons, indexed, ih h.2, ← h.1]

/-- A node has the parts it is given, if they stand under its own segments. -/
theorem children_withChildren {v : Value} {parts : Fields Value}
    (h : parts.map (·.1) = v.children.map (·.1)) : (v.withChildren parts).children = parts := by
  cases v with
  | null => exact (List.map_eq_nil_iff.1 h).symm
  | scalar s => exact (List.map_eq_nil_iff.1 h).symm
  | list items => exact indexed_map_snd h
  | map entries => rfl
  | record header metadata properties =>
      rcases parts with _ | ⟨⟨k₁, m⟩, _ | ⟨⟨k₂, p⟩, _ | _⟩⟩ <;> simp [children] at h
      obtain ⟨rfl, rfl⟩ := h
      rfl

/-- A node is given new parts in the place of those that it was given before. -/
theorem withChildren_withChildren {v : Value} {parts others : Fields Value}
    (h : parts.map (·.1) = v.children.map (·.1)) (hothers : others.map (·.1) = v.children.map (·.1)) :
    (v.withChildren parts).withChildren others = v.withChildren others := by
  cases v with
  | record header metadata properties =>
      rcases parts with _ | ⟨⟨k₁, m⟩, _ | ⟨⟨k₂, p⟩, _ | _⟩⟩ <;> simp [children] at h
      rcases others with _ | ⟨⟨l₁, n⟩, _ | ⟨⟨l₂, q⟩, _ | _⟩⟩ <;> simp [children] at hothers
      rfl
  | _ => rfl

@[simp] theorem withChildren_children (v : Value) : v.withChildren v.children = v := by
  cases v with
  | list items => simp [withChildren, children]
  | _ => rfl

theorem isCompound_withChildren (v : Value) (parts : Fields Value) :
    (v.withChildren parts).isCompound = v.isCompound := by
  cases v <;> try rfl
  rcases parts with _ | ⟨_, _ | ⟨_, _ | _⟩⟩ <;> rfl

/-! ## Induction over a tree -/

theorem sizeOf_lt_of_mem_children {v : Value} {child : String × Value} (h : child ∈ v.children) :
    sizeOf child.2 < sizeOf v := by
  cases v with
  | null => simp [children] at h
  | scalar s => simp [children] at h
  | list items =>
      have hmem : child.2 ∈ items := by
        rw [← map_snd_indexed 0 items]
        exact List.mem_map_of_mem h
      have := List.sizeOf_lt_of_mem hmem
      simp only [Value.list.sizeOf_spec]
      omega
  | map entries =>
      obtain ⟨key, x⟩ := child
      have hlt : sizeOf (key, x) < sizeOf entries := List.sizeOf_lt_of_mem h
      simp only [Prod.mk.sizeOf_spec] at hlt
      simp only [Value.map.sizeOf_spec]
      omega
  | record header metadata properties =>
      simp only [children, List.mem_cons, List.not_mem_nil, or_false] at h
      rcases h with rfl | rfl <;> simp only [Value.record.sizeOf_spec] <;> omega

/-- What holds of a node whenever it holds of its parts holds of every value. -/
theorem induction_on_children {P : Value → Prop}
    (h : ∀ v : Value, (∀ child ∈ v.children, P child.2) → P v) (v : Value) : P v :=
  h v fun child _ => induction_on_children h child.2
termination_by sizeOf v
decreasing_by exact sizeOf_lt_of_mem_children ‹_›

/-! ## Nodes -/

mutual

/-- All values that stand in a tree, the parts of a node before the node. -/
def nodes : Value → List Value
  | .null => [.null]
  | .scalar s => [.scalar s]
  | .list items => nodesOfItems items ++ [.list items]
  | .map entries => nodesOfEntries entries ++ [.map entries]
  | .record header metadata properties =>
    nodes metadata ++ nodes properties ++ [.record header metadata properties]

/-- The nodes of the items of a list. -/
def nodesOfItems : List Value → List Value
  | [] => []
  | x :: xs => nodes x ++ nodesOfItems xs

/-- The nodes of the values of a map. -/
def nodesOfEntries : List (String × Value) → List Value
  | [] => []
  | (_, x) :: rest => nodes x ++ nodesOfEntries rest

end

theorem mem_nodesOfItems {node : Value} (index : Nat) {items : List Value} :
    node ∈ nodesOfItems items ↔ ∃ child ∈ indexed index items, node ∈ child.2.nodes := by
  induction items generalizing index with
  | nil => simp [nodesOfItems, indexed]
  | cons x xs ih => simp [nodesOfItems, indexed, ih (index + 1)]

theorem mem_nodesOfEntries {node : Value} {entries : Fields Value} :
    node ∈ nodesOfEntries entries ↔ ∃ child ∈ entries, node ∈ child.2.nodes := by
  induction entries with
  | nil => simp [nodesOfEntries]
  | cons entry rest ih =>
      obtain ⟨key, x⟩ := entry
      simp only [nodesOfEntries, List.mem_append, ih, List.mem_cons, exists_eq_or_imp]

/-- The nodes of a tree are the tree itself and the nodes of its parts. -/
theorem mem_nodes {node v : Value} :
    node ∈ v.nodes ↔ node = v ∨ ∃ child ∈ v.children, node ∈ child.2.nodes := by
  cases v with
  | null => simp [nodes, children]
  | scalar s => simp [nodes, children]
  | list items => simp [nodes, children, mem_nodesOfItems 0, or_comm]
  | map entries => simp [nodes, children, mem_nodesOfEntries, or_comm]
  | record header metadata properties => simp [nodes, children, or_comm, or_assoc]

theorem self_mem_nodes (v : Value) : v ∈ v.nodes :=
  mem_nodes.2 (Or.inl rfl)

theorem mem_nodes_of_mem_children {node v : Value} {child : String × Value}
    (hchild : child ∈ v.children) (hnode : node ∈ child.2.nodes) : node ∈ v.nodes :=
  mem_nodes.2 (Or.inr ⟨child, hchild, hnode⟩)

/-- What stands in a node of a tree stands in the tree. -/
theorem mem_nodes_trans {inner node v : Value} (hnode : node ∈ v.nodes)
    (hinner : inner ∈ node.nodes) : inner ∈ v.nodes := by
  induction v using induction_on_children with
  | h v ih =>
      rcases mem_nodes.1 hnode with rfl | ⟨child, hchild, hnode⟩
      · exact hinner
      · exact mem_nodes_of_mem_children hchild (ih child hchild hnode)

/-- Induction with a hypothesis for everything that stands below a node. -/
theorem induction_below {P : Value → Prop}
    (h : ∀ v : Value, (∀ child ∈ v.children, ∀ node ∈ child.2.nodes, P node) → P v) (v : Value) :
    P v := by
  suffices hall : ∀ node ∈ v.nodes, P node from hall v (self_mem_nodes v)
  induction v using induction_on_children with
  | h v ih =>
      intro node hnode
      rcases mem_nodes.1 hnode with rfl | ⟨child, hchild, hnode⟩
      · exact h node ih
      · exact ih child hchild node hnode

/-! ## Ordinary nodes -/

/-- Whether the node is a map that a reserved key makes up. -/
def isReserved : Value → Bool
  | .map entries => Fields.isReserved entries
  | _ => false

/-- A node keeps its keys when its parts change. -/
theorem isReserved_withChildren {v : Value} {parts : Fields Value}
    (h : parts.map (·.1) = v.children.map (·.1)) :
    (v.withChildren parts).isReserved = v.isReserved := by
  cases v with
  | map entries => exact Fields.isReserved_congr h
  | record header metadata properties =>
      rcases parts with _ | ⟨_, _ | ⟨_, _ | _⟩⟩ <;> rfl
  | _ => rfl

theorem exists_of_isReserved {v : Value} (h : v.isReserved = true) :
    ∃ key ∈ [Form.refKey, Form.getAttKey, Form.subKey], ∃ body, v = .map [(key, body)] := by
  cases v with
  | map entries =>
      rcases entries with _ | ⟨⟨key, body⟩, _ | _⟩
      · simp [isReserved, Fields.isReserved] at h
      · exact ⟨key, by simpa [isReserved, Fields.isReserved] using h, body, rfl⟩
      · simp [isReserved, Fields.isReserved] at h
  | _ => simp [isReserved] at h

/-- Recognition finds nothing in a node without a reserved key. -/
theorem recognize?_of_not_isReserved {v : Value} (h : v.isReserved = false) :
    Form.recognize? v = .ok none := by
  unfold Form.recognize?
  split
  · rename_i key body
    simp only [isReserved, Fields.isReserved, List.mem_cons, List.not_mem_nil, or_false,
      decide_eq_false_iff_not, not_or] at h
    simp [h.1, h.2.1, h.2.2]
  · rfl

end Value

end StackLinker
