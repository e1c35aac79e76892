import StackLinker.Proofs.Finalization.Passes

/-!
# Markers that are left

Finalization takes one marker off each name.  So it leaves a marker behind where a name carries two,
and then a second finalization takes off that one, too.  Otherwise nothing is left to do: the second
finalization reaches its end and changes nothing (`Value.finalize_finalize`).

The names meant here are those that forms have in the place of a name: what a reference or an
attribute asks for, and what the placeholders of a pattern ask for, whether or not an argument binds
them.  Both halves of the statement are read off a single pass, by `Value.finalize_induction`.

* A pass changes nothing if and only if no name carries the marker (`Value.finalize_eq_self_iff`).
* After a pass no name carries the marker if and only if none carried it twice before
  (`Value.unmarked_of_finalize_iff`).
-/

namespace StackLinker

/-! ## Names in a value -/

/-- The names that stand in a form, bound or not. -/
def Form.names : Form → List String
  | .reference key => [key]
  | .attributeOf key _ => [key]
  | .substitution pattern _ => Pattern.names pattern

theorem Form.names_of_target? {form : Form} {key : String} (h : form.target? = some key) :
    form.names = [key] := by
  cases form <;> simp only [target?, Option.some.injEq, reduceCtorEq] at h <;> rw [names, h]

namespace Value

/-- The names that stand in the form at a node. -/
def ownNames (node : Value) : List String :=
  match Form.peek node with
  | some form => form.names
  | none => []

/-- The names that stand in the forms of a value. -/
def names (v : Value) : List String :=
  v.nodes.flatMap ownNames

variable {v : Value} {name : String}

theorem ownNames_of_recognize? {found : Option Form} (h : Form.recognize? v = .ok found) :
    v.ownNames = (found.map Form.names).getD [] := by
  unfold ownNames Form.peek
  rw [h]
  cases found <;> rfl

/-- The names in a value are those at its root and those in its parts. -/
theorem mem_names : name ∈ v.names ↔
    name ∈ v.ownNames ∨ ∃ child ∈ v.children, name ∈ child.2.names := by
  simp only [names, List.mem_flatMap]
  constructor
  · rintro ⟨node, hnode, hname⟩
    rcases mem_nodes.1 hnode with rfl | ⟨child, hchild, hnode⟩
    · exact Or.inl hname
    · exact Or.inr ⟨child, hchild, node, hnode, hname⟩
  · rintro (hname | ⟨child, hchild, node, hnode, hname⟩)
    · exact ⟨v, self_mem_nodes v, hname⟩
    · exact ⟨node, mem_nodes_of_mem_children hchild hnode, hname⟩

theorem mem_names_of_not_isReserved (h : v.isReserved = false) :
    name ∈ v.names ↔ ∃ child ∈ v.children, name ∈ child.2.names := by
  rw [mem_names, ownNames_of_recognize? (recognize?_of_not_isReserved h)]
  exact or_iff_right (by simp)

theorem mem_names_of_target? {form : Form} {key : String}
    (hform : Form.recognize? v = .ok (some form)) (htarget : form.target? = some key) :
    name ∈ v.names ↔ name = key := by
  rw [mem_names, ownNames_of_recognize? hform, Option.map_some, Option.getD_some,
    Form.names_of_target? htarget, List.mem_singleton]
  refine or_iff_left ?_
  rintro ⟨child, hchild, hname⟩
  obtain ⟨node, hnode, hname⟩ := List.mem_flatMap.1 hname
  rw [ownNames_of_recognize? (Form.recognize?_below_target hform htarget hchild hnode)] at hname
  simp at hname

/-- The names in a substitution are those of its pattern and those in its arguments. -/
theorem mem_names_template {pattern : String} {arguments : Option (Fields Value)} :
    name ∈ (template pattern arguments).names ↔ name ∈ Pattern.names pattern ∨
      ∃ map, arguments = some map ∧ name ∈ (Value.map map).names := by
  have hstring : ∀ s, (string s).names = [] := fun _ => rfl
  have hown : (template pattern arguments).ownNames = Pattern.names pattern :=
    ownNames_of_recognize? (Form.recognize?_template pattern arguments)
  rw [mem_names, hown]
  refine or_congr_right ?_
  cases arguments with
  | none => simp [template, children, hstring]
  | some map =>
      simp only [template, children, List.mem_singleton, exists_eq_left, Option.some.injEq,
        exists_eq_left']
      rw [mem_names_of_not_isReserved rfl]
      refine (exists_children_list (P := fun item => name ∈ item.names)).trans ?_
      simp [hstring]

theorem names_scalar (s : Scalar) : (Value.scalar s).names = [] := rfl

/-! ## One pass -/

variable {config : Config} {path : Path} {root : String} {w : Value}

/-- The names in a substitution whose arguments are finalized. -/
theorem mem_names_bareForm_template {pattern : String} {arguments : Option (Fields Value)} :
    name ∈ (config.bareForm (.template pattern arguments)
        (.substitution pattern arguments)).names ↔
      name ∈ Pattern.names (config.barePattern pattern) ∨
        ∃ map, arguments = some map ∧ name ∈ (Value.map map).names := by
  rw [Config.bareForm_template, mem_names_template]
  refine or_congr_right ?_
  split
  · exact Iff.rfl
  · rename_i hdropped
    -- There is no name in an empty map.
    obtain rfl : arguments = some [] := by simpa using (not_or.1 hdropped).2
    simp [names, nodes, nodesOfEntries, ownNames, Form.peek, Form.recognize?, Except.toOption]

/-- A pass changes nothing if and only if no name carries the marker. -/
theorem finalize_eq_self_iff (h : v.Rewrites config.finalizeRule path () w ()) :
    w = v ↔ ∀ name ∈ v.names, ¬ config.IsMarked name := by
  refine finalize_induction (P := fun v w => w = v ↔ ∀ name ∈ v.names, ¬ config.IsMarked name)
    ?scalar ?ordinary ?target ?pattern ?arguments h
  case scalar => simp [names_scalar]
  case ordinary =>
    intro v parts hordinary hparts
    have hkeys : parts.map (·.1) = v.children.map (·.1) :=
      (hparts.map_eq_map fun hpart => hpart.1.symm).symm
    have hsame : v.withChildren parts = v ↔ parts = v.children := by
      refine ⟨fun hv => ?_, fun hchildren => by rw [hchildren, withChildren_children]⟩
      rw [← children_withChildren hkeys, hv]
    rw [hsame]
    constructor
    · rintro hchildren name hname
      rw [hchildren] at hparts
      obtain ⟨child, hchild, hname⟩ := (mem_names_of_not_isReserved hordinary).1 hname
      exact (List.forall₂_same.1 hparts child hchild).2.1 rfl name hname
    · intro hunmarked
      have hchildren : ∀ child ∈ v.children, ∀ name ∈ child.2.names, ¬ config.IsMarked name :=
        fun child hchild name hname => hunmarked name
          ((mem_names_of_not_isReserved hordinary).2 ⟨child, hchild, hname⟩)
      have hequal : List.Forall₂ Eq v.children parts :=
        ((List.forall₂_and_left _ _).2 ⟨hchildren, hparts⟩).imp fun old new hpart =>
          Prod.ext hpart.2.1.symm (hpart.2.2.2 hpart.1).symm
      rw [List.forall₂_eq_eq_eq] at hequal
      exact hequal.symm
  case target =>
    intro v form key hform htarget
    simp [Config.bareForm_eq_self_iff hform htarget, mem_names_of_target? hform htarget]
  case pattern =>
    intro text
    simp [Config.bareForm_template, Form.template_inj, mem_names_template,
      Config.barePattern_eq_self_iff]
  case arguments =>
    intro text arguments done path _ ih
    have hsame : config.bareForm (.template text (some done)) (.substitution text (some done)) =
        .template text (some arguments) ↔
          config.barePattern text = text ∧ Value.map done = .map arguments := by
      rw [Config.bareForm_template, Form.template_inj, map.injEq]
      refine and_congr_right fun htext => ?_
      simp [htext]
    simp only [hsame, ih, Config.barePattern_eq_self_iff, mem_names_template, or_imp, forall_and,
      Option.some.injEq, exists_eq_left']

/-- After a pass no name carries the marker if and only if none carried it twice before. -/
theorem unmarked_of_finalize_iff (h : v.Rewrites config.finalizeRule path () w ()) :
    (∀ name ∈ w.names, ¬ config.IsMarked name) ↔
      ∀ name ∈ v.names, ¬ config.IsDoublyMarked name := by
  refine finalize_induction (P := fun v w => (∀ name ∈ w.names, ¬ config.IsMarked name) ↔
    ∀ name ∈ v.names, ¬ config.IsDoublyMarked name)
    ?scalar ?ordinary ?target ?pattern ?arguments h
  case scalar => simp [names_scalar]
  case ordinary =>
    intro v parts hordinary hparts
    have hkeys : parts.map (·.1) = v.children.map (·.1) :=
      (hparts.map_eq_map fun hpart => hpart.1.symm).symm
    have hafter : (v.withChildren parts).isReserved = false :=
      (isReserved_withChildren hkeys).trans hordinary
    constructor
    · intro hunmarked name hname
      obtain ⟨old, hold, hname⟩ := (mem_names_of_not_isReserved hordinary).1 hname
      obtain ⟨new, hnew, -, hpart⟩ := hparts.exists_of_mem_left hold
      refine hpart.1 (fun other hother => hunmarked other ?_) name hname
      refine (mem_names_of_not_isReserved hafter).2 ⟨new, ?_, hother⟩
      rwa [children_withChildren hkeys]
    · intro hsingle name hname
      obtain ⟨new, hnew, hname⟩ := (mem_names_of_not_isReserved hafter).1 hname
      rw [children_withChildren hkeys] at hnew
      obtain ⟨old, hold, -, hpart⟩ := hparts.exists_of_mem_right hnew
      exact hpart.2 (fun other hother => hsingle other
        ((mem_names_of_not_isReserved hordinary).2 ⟨old, hold, hother⟩)) name hname
  case target =>
    intro v form key hform htarget
    obtain ⟨other, hother, hname⟩ := Config.target?_bareForm config hform htarget
    simp [mem_names_of_target? hform htarget, mem_names_of_target? hother hname,
      Config.isMarked_bareName_iff]
  case pattern =>
    intro text
    simp [mem_names_bareForm_template, mem_names_template, Config.unmarked_barePattern_iff]
  case arguments =>
    intro text arguments done path _ ih
    simp only [mem_names_bareForm_template, mem_names_template, or_imp, forall_and,
      Option.some.injEq, exists_eq_left', Config.unmarked_barePattern_iff, ih]

/-! ## A second pass -/

/-- A second finalization reaches its end if the first one did.  It changes nothing, and nothing is
left to do after the first one, if and only if no name carries the marker twice. -/
theorem finalize_finalize (hfirst : (v.finalize config root).failure = none) :
    ((v.finalize config root).result.finalize config root).failure = none ∧
      (((v.finalize config root).result.finalize config root).result =
          (v.finalize config root).result ↔
        ∀ name ∈ v.names, ¬ config.IsDoublyMarked name) ∧
      ((∀ name ∈ (v.finalize config root).result.names, ¬ config.IsMarked name) ↔
        ∀ name ∈ v.names, ¬ config.IsDoublyMarked name) := by
  have hrewrites := rewrites_of_finalize hfirst
  have hagain := failure_finalize (isWellFormed_of_finalize hrewrites) config root
  have hmarks := unmarked_of_finalize_iff hrewrites
  exact ⟨hagain, (finalize_eq_self_iff (rewrites_of_finalize hagain)).trans hmarks, hmarks⟩

/-- A value with names that carry the marker once, in all places where names stand, and with names
that lead to trouble in patterns: one becomes an escape, and one is bound by an argument. -/
def marked : Value :=
  .list [.ref "@Q", .map [("Fn::GetAtt", .string "@Q.Arn")],
    .sub "$${@Q}${!@@Q}${@!Q}${@Q.Arn}$\x7b@" [("@Q", .map [("a", .ref "@Q")])],
    .sub "${P}" [("Ref", .string "@Q")]]

theorem finalize_finalize_marked :
    (marked.finalize {} "V").failure = none ∧
      ((marked.finalize {} "V").result.finalize {} "V").failure = none ∧
      ((marked.finalize {} "V").result.finalize {} "V").result = (marked.finalize {} "V").result ∧
      ∀ name ∈ (marked.finalize {} "V").result.names, ¬ Config.IsMarked {} name := by
  have hfirst : (marked.finalize {} "V").failure = none := by decide +kernel
  have hsingle : ∀ name ∈ marked.names, ¬ Config.IsDoublyMarked {} name := by decide +kernel
  obtain ⟨hagain, hsame, hmarks⟩ := finalize_finalize hfirst
  exact ⟨hfirst, hagain, hsame.2 hsingle, hmarks.2 hsingle⟩

/-- A reference to a name that carries the marker twice. -/
def doublyMarked : Value := .ref "@@X"

/-- The first finalization leaves one of the markers, and the second one takes it off. -/
theorem finalize_finalize_doublyMarked :
    (doublyMarked.finalize {} "V").failure = none ∧
      (doublyMarked.finalize {} "V").result = .ref "@X" ∧
      ((doublyMarked.finalize {} "V").result.finalize {} "V").result = .ref "X" ∧
      ((doublyMarked.finalize {} "V").result.finalize {} "V").result ≠
        (doublyMarked.finalize {} "V").result ∧
      "@X" ∈ (doublyMarked.finalize {} "V").result.names ∧ Config.IsMarked {} "@X" := by
  decide +kernel

end Value

end StackLinker
