import Mathlib.Logic.Relation
import StackLinker.Proofs.Dependency.Cycles
import StackLinker.Proofs.Form.Shapes
import StackLinker.Proofs.Module.Lookup
import StackLinker.Substitution

/-!
# Declared dependencies

The names that a reference uses, as they are written in it: the targets of references and
attributes, and the placeholders of a substitution that its own arguments do not bind.  Exempt
names do not count, since they are never looked up.

The references of a module give a relation between its names.  It is closed if every name that is
used belongs to an entity, and acyclic if no name depends on itself.  Acyclicity is shown by
listing the names so that each stands behind the names it depends on (`acyclic_of_ordered`), and it
is used by finding, among the names that are left, one that depends on none of them
(`exists_terminal`).
-/

namespace StackLinker

namespace Pattern

/-- The names that the placeholders of a pattern ask for.  Escapes ask for none. -/
def names (pattern : String) : List String :=
  (pieces pattern).filterMap fun
    | .char _ => none
    | .hole inner => (Placeholder.ofHole? inner).map (·.name)

theorem mem_names {pattern name : String} : name ∈ names pattern ↔
    ∃ inner placeholder, .hole inner ∈ pieces pattern ∧
      Placeholder.ofHole? inner = some placeholder ∧ placeholder.name = name := by
  unfold names
  rw [List.mem_filterMap]
  constructor
  · rintro ⟨piece, hmem, hname⟩
    cases piece with
    | char c => simp at hname
    | hole inner =>
        obtain ⟨placeholder, hhole, hname⟩ := Option.map_eq_some_iff.1 hname
        exact ⟨inner, placeholder, hmem, hhole, hname⟩
  · rintro ⟨inner, placeholder, hmem, hhole, rfl⟩
    exact ⟨.hole inner, hmem, by simp [hhole]⟩

end Pattern

namespace Form

/-- The names that a form uses. -/
def uses : Form → List String
  | .reference key => [key]
  | .attributeOf key _ => [key]
  | .substitution pattern arguments =>
    (Pattern.names pattern).filter fun name => !Fields.contains name (arguments.getD [])

theorem uses_of_target? {form : Form} {key : String} (h : form.target? = some key) :
    form.uses = [key] := by
  cases form <;> simp only [target?, Option.some.injEq, reduceCtorEq] at h <;> rw [uses, h]

theorem mem_uses_substitution {pattern name : String} {arguments : Option (Fields Value)} :
    name ∈ (substitution pattern arguments).uses ↔
      name ∈ Pattern.names pattern ∧ name ∉ Fields.keys (arguments.getD []) := by
  simp [uses, ← Fields.contains_iff_mem_keys]

end Form

namespace Value

/-- The names that are used at a node itself. -/
def ownUses (config : Config) (node : Value) : List String :=
  match Form.peek node with
  | some form => form.uses.filter fun name => !config.isExempt name
  | none => []

/-- The names that a value uses. -/
def uses (config : Config) (v : Value) : List String :=
  v.nodes.flatMap (ownUses config)

variable {config : Config} {v : Value} {name : String}

theorem mem_ownUses : name ∈ v.ownUses config ↔
    ∃ form, Form.recognize? v = .ok (some form) ∧ name ∈ form.uses ∧
      config.isExempt name = false := by
  unfold ownUses Form.peek
  cases hform : Form.recognize? v with
  | error e => simp [Except.toOption]
  | ok found => cases found <;> simp [Except.toOption]

/-- A value uses what its root and its parts use. -/
theorem mem_uses : name ∈ v.uses config ↔
    name ∈ v.ownUses config ∨ ∃ child ∈ v.children, name ∈ child.2.uses config := by
  simp only [uses, List.mem_flatMap]
  constructor
  · rintro ⟨node, hnode, hname⟩
    rcases mem_nodes.1 hnode with rfl | ⟨child, hchild, hnode⟩
    · exact Or.inl hname
    · exact Or.inr ⟨child, hchild, node, hnode, hname⟩
  · rintro (hname | ⟨child, hchild, node, hnode, hname⟩)
    · exact ⟨v, self_mem_nodes v, hname⟩
    · exact ⟨node, mem_nodes_of_mem_children hchild hnode, hname⟩

theorem not_isExempt_of_mem_uses (h : name ∈ v.uses config) : config.isExempt name = false := by
  obtain ⟨node, -, hname⟩ := List.mem_flatMap.1 h
  obtain ⟨form, -, -, hexempt⟩ := mem_ownUses.1 hname
  exact hexempt

theorem mem_uses_of_not_isReserved (h : v.isReserved = false) : name ∈ v.uses config ↔
    ∃ child ∈ v.children, name ∈ child.2.uses config := by
  rw [mem_uses, or_iff_right]
  rw [mem_ownUses]
  rintro ⟨form, hform, -⟩
  simp [recognize?_of_not_isReserved h] at hform

theorem uses_scalar (s : Scalar) : (Value.scalar s).uses config = [] := rfl

theorem uses_string (s : String) : (Value.string s).uses config = [] := rfl

theorem mem_uses_list {items : List Value} :
    name ∈ (Value.list items).uses config ↔ ∃ item ∈ items, name ∈ item.uses config := by
  rw [mem_uses_of_not_isReserved rfl]
  exact exists_children_list (P := fun item => name ∈ item.uses config)

/-- A reference or an attribute uses the name it asks for, unless the name is exempt. -/
theorem mem_uses_of_target? {form : Form} {key : String}
    (hform : Form.recognize? v = .ok (some form)) (htarget : form.target? = some key) :
    name ∈ v.uses config ↔ name = key ∧ config.isExempt key = false := by
  have hown : name ∈ v.ownUses config ↔ name = key ∧ config.isExempt key = false := by
    rw [mem_ownUses]
    constructor
    · rintro ⟨other, hother, hname, hexempt⟩
      rw [hform] at hother
      simp only [Except.ok.injEq, Option.some.injEq] at hother
      subst hother
      rw [Form.uses_of_target? htarget, List.mem_singleton] at hname
      exact ⟨hname, hname ▸ hexempt⟩
    · rintro ⟨rfl, hexempt⟩
      exact ⟨form, hform, by simp [Form.uses_of_target? htarget], hexempt⟩
  rw [mem_uses, hown]
  refine or_iff_left ?_
  rintro ⟨child, hchild, hname⟩
  obtain ⟨node, hnode, hname⟩ := List.mem_flatMap.1 hname
  obtain ⟨other, hother, -⟩ := mem_ownUses.1 hname
  simp [Form.recognize?_below_target hform htarget hchild hnode] at hother

/-- A template uses the names of its pattern that it does not bind, and what its arguments use. -/
theorem mem_uses_template {pattern : String} {arguments : Option (Fields Value)}
    (hordinary : Fields.isReserved (arguments.getD []) = false) :
    name ∈ (template pattern arguments).uses config ↔
      (name ∈ Pattern.names pattern ∧ name ∉ Fields.keys (arguments.getD []) ∧
        config.isExempt name = false) ∨
      ∃ argument ∈ arguments.getD [], name ∈ argument.2.uses config := by
  have hown : name ∈ (template pattern arguments).ownUses config ↔
      name ∈ Pattern.names pattern ∧ name ∉ Fields.keys (arguments.getD []) ∧
        config.isExempt name = false := by
    rw [mem_ownUses]
    constructor
    · rintro ⟨form, hform, hname, hexempt⟩
      rw [Form.recognize?_template] at hform
      simp only [Except.ok.injEq, Option.some.injEq] at hform
      subst hform
      obtain ⟨hmem, hkeys⟩ := Form.mem_uses_substitution.1 hname
      exact ⟨hmem, hkeys, hexempt⟩
    · rintro ⟨hmem, hkeys, hexempt⟩
      exact ⟨_, Form.recognize?_template pattern arguments,
        Form.mem_uses_substitution.2 ⟨hmem, hkeys⟩, hexempt⟩
  rw [mem_uses, hown]
  refine or_congr_right ?_
  cases arguments with
  | none => simp [template, children, uses_string]
  | some arguments =>
      have hmap : (Value.map arguments).isReserved = false := hordinary
      simp only [template, children, exists_eq_left, mem_uses_list, List.mem_cons, List.not_mem_nil,
        or_false, exists_eq_or_imp, uses_string, false_or, mem_uses_of_not_isReserved hmap,
        Option.getD_some]

/-- A reference that is settled by its shape uses nothing. -/
theorem uses_of_classify {entity : String} (h : v.classify entity = .ok .free) :
    v.uses config = [] := by
  rcases classify_eq_free_iff.1 h with ⟨s, rfl⟩ | ⟨items, rfl, hscalars⟩
  · exact uses_scalar s
  · rw [List.eq_nil_iff_forall_not_mem]
    intro name hname
    obtain ⟨item, hitem, hname⟩ := mem_uses_list.1 hname
    obtain ⟨s, rfl⟩ := hscalars item hitem
    simp [uses_scalar] at hname

end Value

/-! ## The dependency relation -/

namespace ModuleGraph

/-- Whether the reference of the first entity uses the name of the second. -/
def DependsOn (config : Config) (graph : ModuleGraph) (a b : String) : Prop :=
  ∃ entity ∈ graph.entities, entity.fullName = a ∧ b ∈ entity.reference.uses config

/-- Every name that is used belongs to an entity. -/
def IsClosed (config : Config) (graph : ModuleGraph) : Prop :=
  ∀ a b, graph.DependsOn config a b → b ∈ graph.names

/-- No entity depends on itself, directly or through others. -/
def IsAcyclic (config : Config) (graph : ModuleGraph) : Prop :=
  ∀ a, ¬ Relation.TransGen (graph.DependsOn config) a a

variable {config : Config} {graph : ModuleGraph}

/-- Names that each stand behind what they depend on do not depend on themselves. -/
theorem acyclic_of_ordered {order : List String} (hall : ∀ name ∈ graph.names, name ∈ order)
    (hordered : ∀ before name after, order = before ++ name :: after →
      ∀ other, graph.DependsOn config name other → other ∈ before) :
    graph.IsAcyclic config := by
  have hstep : ∀ a b, graph.DependsOn config a b → order.idxOf b < order.idxOf a := by
    intro a b hab
    have ha : a ∈ order := by
      obtain ⟨entity, hentity, rfl, -⟩ := hab
      exact hall _ (List.mem_map_of_mem hentity)
    obtain ⟨before, after, horder, hfirst⟩ := List.eq_append_cons_of_mem ha
    have hb := hordered before a after horder b hab
    calc order.idxOf b = before.idxOf b := by rw [horder, List.idxOf_append_of_mem hb]
      _ < before.length := List.idxOf_lt_length_of_mem hb
      _ = order.idxOf a := by
        rw [horder, List.idxOf_append_of_notMem hfirst, List.idxOf_cons_self, Nat.add_zero]
  intro a hcycle
  have hlt : ∀ b, Relation.TransGen (graph.DependsOn config) a b →
      order.idxOf b < order.idxOf a := by
    intro b hab
    induction hab with
    | single h => exact hstep _ _ h
    | tail _ h ih => exact (hstep _ _ h).trans ih
  exact lt_irrefl _ (hlt a hcycle)

/-- A module whose names can be ordered in this way is closed and acyclic. -/
theorem closed_and_acyclic_of_ordered {order : List String} (hperm : order.Perm graph.names)
    (hordered : ∀ before name after, order = before ++ name :: after →
      ∀ other, graph.DependsOn config name other → other ∈ before) :
    graph.IsClosed config ∧ graph.IsAcyclic config := by
  refine ⟨fun a b hab => ?_, acyclic_of_ordered (fun name => hperm.mem_iff.2) hordered⟩
  have ha : a ∈ order := by
    obtain ⟨entity, hentity, rfl, -⟩ := hab
    exact hperm.mem_iff.2 (Entity.fullName_mem_names hentity)
  obtain ⟨before, after, hsplit, -⟩ := List.eq_append_cons_of_mem ha
  refine hperm.mem_iff.1 ?_
  rw [hsplit]
  exact List.mem_append_left _ (hordered before a after hsplit b hab)

/-- Whether each entity uses only names that were seen or that stand in front of it. -/
def isLayered (config : Config) : List String → List Entity → Bool
  | _, [] => true
  | seen, entity :: rest =>
    (entity.reference.uses config).all (fun name => seen.contains name) &&
      isLayered config (seen ++ [entity.fullName]) rest

private theorem mem_of_isLayered {seen : List String} {front back : List Entity} {entity : Entity}
    (h : isLayered config seen (front ++ entity :: back) = true) {name : String}
    (hname : name ∈ entity.reference.uses config) : name ∈ seen ++ Entity.names front := by
  induction front generalizing seen with
  | nil =>
      simp only [List.nil_append, isLayered, Bool.and_eq_true, List.all_eq_true] at h
      simpa using h.1 name hname
  | cons first rest ih =>
      simp only [List.cons_append, isLayered, Bool.and_eq_true] at h
      simpa using ih h.2

/-- The dependencies of a module in layers are closed and acyclic. -/
theorem closed_and_acyclic_of_isLayered (hnodup : graph.names.Nodup)
    (h : isLayered config [] graph.entities = true) :
    graph.IsClosed config ∧ graph.IsAcyclic config := by
  have hordered : ∀ before name after, graph.names = before ++ name :: after →
      ∀ other, graph.DependsOn config name other → other ∈ before := by
    rintro before name after hsplit other ⟨entity, hentity, rfl, hother⟩
    obtain ⟨front, back, hfront, rfl, hback⟩ := List.map_eq_append_iff.1 hsplit
    obtain ⟨same, rest, rfl, hsame, -⟩ := List.map_eq_cons_iff.1 hback
    have hmem : same ∈ graph.entities := by
      rw [hfront]
      simp
    obtain rfl : same = entity := List.inj_on_of_nodup_map hnodup hmem hentity hsame
    rw [hfront] at h
    exact mem_of_isLayered h hother
  exact closed_and_acyclic_of_ordered (List.Perm.refl _) hordered

end ModuleGraph

end StackLinker
