import StackLinker.Proofs.Value.Rewriting

/-!
# The shapes of symbolic forms

Recognition reads a form from a node; here the nodes are read off from the form.  A reference is
written in one way, an attribute in two, and a substitution is a `template`, with or without an
argument map.

A rule for symbolic forms passes over the parts of a node before the node itself.  The parts of a
reference and of an attribute are texts, so such a node meets its action as it was written
(`rewrites_target_iff`).  A template meets its action with rewritten arguments
(`rewrites_template_iff`), as long as its argument map is not itself a form that could turn into
something else.
-/

namespace StackLinker

namespace Form

/-- The name that a reference or an attribute asks for. -/
def target? : Form → Option String
  | .reference key => some key
  | .attributeOf key _ => some key
  | .substitution .. => none

end Form

namespace Value

/-- A substitution, with or without an argument map. -/
def template (pattern : String) (arguments : Option (Fields Value)) : Value :=
  .map [(Form.subKey,
    match arguments with
    | none => .string pattern
    | some arguments => .list [.string pattern, .map arguments])]

theorem sub_eq_template (pattern : String) (arguments : Fields Value) :
    sub pattern arguments =
      template pattern (if arguments.isEmpty then none else some arguments) := by
  cases arguments <;> rfl

theorem getD_ifEmpty (arguments : Fields Value) :
    (if arguments.isEmpty then none else some arguments).getD [] = arguments := by
  cases arguments <;> rfl

theorem eq_of_ifEmpty {arguments map : Fields Value}
    (h : (if arguments.isEmpty then none else some arguments) = some map) : arguments = map := by
  split at h
  · simp at h
  · exact Option.some.inj h

/-- Where there is no argument map, there is nothing to put in its place. -/
theorem getD_map_of_keys_eq {arguments : Option (Fields Value)} {done : Fields Value}
    (hkeys : Fields.keys done = Fields.keys (arguments.getD [])) :
    (arguments.map fun _ => done).getD [] = done := by
  cases arguments with
  | none => exact (List.map_eq_nil_iff.1 hkeys).symm
  | some arguments => rfl

end Value

namespace Form

variable {v body : Value} {form : Form} {key attr pattern : String}
  {arguments : Option (Fields Value)}

theorem asString_eq_some_iff {s : String} : v.asString = some s ↔ v = .string s := by
  constructor
  · intro h
    unfold Value.asString at h
    split at h
    · exact congrArg Value.string (Option.some.inj h)
    · simp at h
  · rintro rfl
    rfl

private theorem map_some_eq {α : Type} {result : Except Malformation α} {a : α}
    (h : result.map some = .ok (some a)) : result = .ok a := by
  cases result with
  | error e => simp [Except.map] at h
  | ok b => simpa [Except.map] using h

/-- A form stands under one of the three reserved keys. -/
theorem recognize?_eq_some (h : recognize? v = .ok (some form)) :
    ∃ body, (v = .map [(refKey, body)] ∧ ofRefBody body = .ok form) ∨
      (v = .map [(getAttKey, body)] ∧ ofGetAttBody body = .ok form) ∨
      (v = .map [(subKey, body)] ∧ ofSubBody body = .ok form) := by
  unfold recognize? at h
  split at h
  · rename_i key body
    refine ⟨body, ?_⟩
    split at h
    · rename_i hkey
      exact Or.inl ⟨by rw [hkey], map_some_eq h⟩
    · split at h
      · rename_i hkey
        exact Or.inr (Or.inl ⟨by rw [hkey], map_some_eq h⟩)
      · split at h
        · rename_i hkey
          exact Or.inr (Or.inr ⟨by rw [hkey], map_some_eq h⟩)
        · simp at h
  · simp at h

theorem recognize?_refKey (body : Value) :
    recognize? (.map [(refKey, body)]) = (ofRefBody body).map some := by
  simp [recognize?]

theorem recognize?_getAttKey (body : Value) :
    recognize? (.map [(getAttKey, body)]) = (ofGetAttBody body).map some := by
  simp [recognize?, getAttKey, refKey]

theorem recognize?_subKey (body : Value) :
    recognize? (.map [(subKey, body)]) = (ofSubBody body).map some := by
  simp [recognize?, subKey, getAttKey, refKey]

theorem isReserved_of_recognize? (h : recognize? v = .ok (some form)) : v.isReserved = true := by
  obtain ⟨body, ⟨rfl, -⟩ | ⟨rfl, -⟩ | ⟨rfl, -⟩⟩ := recognize?_eq_some h <;>
    simp [Value.isReserved, Fields.isReserved]

theorem isReserved_eq_false_of_recognize? (h : recognize? v = .ok none) :
    v.isReserved = false := by
  have hnone : ∀ result : Except Malformation Form, result.map some ≠ .ok none := by
    intro result
    cases result <;> simp [Except.map]
  rw [← Bool.not_eq_true]
  intro hreserved
  obtain ⟨key, hkey, body, rfl⟩ := Value.exists_of_isReserved hreserved
  simp only [List.mem_cons, List.not_mem_nil, or_false] at hkey
  rcases hkey with rfl | rfl | rfl
  · exact hnone _ ((recognize?_refKey body).symm.trans h)
  · exact hnone _ ((recognize?_getAttKey body).symm.trans h)
  · exact hnone _ ((recognize?_subKey body).symm.trans h)

/-! ## Bodies -/

theorem ofRefBody_eq_ok (h : ofRefBody body = .ok form) :
    ∃ key, body = .string key ∧ form = .reference key := by
  unfold ofRefBody at h
  split at h
  · rename_i key hkey
    exact ⟨key, asString_eq_some_iff.1 hkey, (Except.ok.inj h).symm⟩
  · simp at h

/-- The two ways to write an attribute. -/
theorem ofGetAttBody_eq_ok (h : ofGetAttBody body = .ok form) :
    ∃ key attr, form = .attributeOf key attr ∧
      (body = .list [.string key, .string attr] ∨
        ∃ s, body = .string s ∧ Text.cutAtDot s = some (key, attr)) := by
  unfold ofGetAttBody at h
  split at h
  · rename_i first second
    split at h
    · rename_i key attr hkey hattr
      rw [asString_eq_some_iff] at hkey hattr
      exact ⟨key, attr, (Except.ok.inj h).symm, Or.inl (by rw [hkey, hattr])⟩
    · simp at h
  · simp at h
  · split at h
    · rename_i key attr hcut
      obtain ⟨s, hs, hcut⟩ := Option.bind_eq_some_iff.1 hcut
      exact ⟨key, attr, (Except.ok.inj h).symm, Or.inr ⟨s, asString_eq_some_iff.1 hs, hcut⟩⟩
    · simp at h

theorem ofSubBody_eq_ok (h : ofSubBody body = .ok form) :
    ∃ pattern arguments, form = .substitution pattern arguments ∧
      .map [(subKey, body)] = Value.template pattern arguments := by
  unfold ofSubBody at h
  split at h
  · exact ⟨_, none, (Except.ok.inj h).symm, rfl⟩
  · rename_i first arguments
    split at h
    · rename_i pattern hpattern
      rw [asString_eq_some_iff] at hpattern
      exact ⟨pattern, some arguments, (Except.ok.inj h).symm, by rw [hpattern]; rfl⟩
    · simp at h
  · simp at h
  · simp at h

theorem recognize?_eq_reference_iff :
    recognize? v = .ok (some (.reference key)) ↔ v = .ref key := by
  refine ⟨fun h => ?_, by rintro rfl; exact recognize?_ref key⟩
  obtain ⟨body, ⟨rfl, hbody⟩ | ⟨rfl, hbody⟩ | ⟨rfl, hbody⟩⟩ := recognize?_eq_some h
  · obtain ⟨other, rfl, hform⟩ := ofRefBody_eq_ok hbody
    rw [Form.reference.inj hform]
    rfl
  · obtain ⟨_, _, hform, -⟩ := ofGetAttBody_eq_ok hbody
    simp at hform
  · obtain ⟨_, _, hform, -⟩ := ofSubBody_eq_ok hbody
    simp at hform

theorem recognize?_eq_attributeOf (h : recognize? v = .ok (some (.attributeOf key attr))) :
    v = .getAtt key attr ∨
      ∃ s, v = .map [(getAttKey, .string s)] ∧ Text.cutAtDot s = some (key, attr) := by
  obtain ⟨body, ⟨rfl, hbody⟩ | ⟨rfl, hbody⟩ | ⟨rfl, hbody⟩⟩ := recognize?_eq_some h
  · obtain ⟨_, -, hform⟩ := ofRefBody_eq_ok hbody
    simp at hform
  · obtain ⟨key', attr', hform, hshape⟩ := ofGetAttBody_eq_ok hbody
    obtain ⟨rfl, rfl⟩ := Form.attributeOf.inj hform
    rcases hshape with rfl | ⟨s, rfl, hcut⟩
    · exact Or.inl rfl
    · exact Or.inr ⟨s, rfl, hcut⟩
  · obtain ⟨_, _, hform, -⟩ := ofSubBody_eq_ok hbody
    simp at hform

theorem recognize?_template (pattern : String) (arguments : Option (Fields Value)) :
    recognize? (.template pattern arguments) = .ok (some (.substitution pattern arguments)) := by
  unfold Value.template
  rw [recognize?_subKey]
  cases arguments <;> rfl

theorem recognize?_eq_substitution_iff :
    recognize? v = .ok (some (.substitution pattern arguments)) ↔
      v = .template pattern arguments := by
  refine ⟨fun h => ?_, by rintro rfl; exact recognize?_template pattern arguments⟩
  obtain ⟨body, ⟨rfl, hbody⟩ | ⟨rfl, hbody⟩ | ⟨rfl, hbody⟩⟩ := recognize?_eq_some h
  · obtain ⟨_, -, hform⟩ := ofRefBody_eq_ok hbody
    simp at hform
  · obtain ⟨_, _, hform, -⟩ := ofGetAttBody_eq_ok hbody
    simp at hform
  · obtain ⟨pattern', arguments', hform, hshape⟩ := ofSubBody_eq_ok hbody
    obtain ⟨rfl, rfl⟩ := Form.substitution.inj hform
    exact hshape

/-- No form stands below a reference or an attribute. -/
theorem recognize?_below_target {key : String} (hform : recognize? v = .ok (some form))
    (htarget : form.target? = some key) {child : String × Value} (hchild : child ∈ v.children)
    {node : Value} (hnode : node ∈ child.2.nodes) : recognize? node = .ok none := by
  have hstring : ∀ s, node ∈ (Value.string s).nodes → recognize? node = .ok none := by
    intro s h
    obtain rfl : node = .string s := by simpa [Value.string, Value.nodes] using h
    rfl
  cases form with
  | reference key =>
      obtain rfl := recognize?_eq_reference_iff.1 hform
      obtain rfl : child = (refKey, .string key) := by
        simpa [Value.ref, Value.children] using hchild
      exact hstring key hnode
  | attributeOf key attr =>
      rcases recognize?_eq_attributeOf hform with rfl | ⟨s, rfl, -⟩
      · obtain rfl : child = (getAttKey, .list [.string key, .string attr]) := by
          simpa [Value.getAtt, Value.children] using hchild
        rcases Value.mem_nodes.1 hnode with rfl | ⟨part, hpart, hnode⟩
        · rfl
        · have hitems : ∀ item ∈ [Value.string key, .string attr], ∃ s, item = .string s :=
            List.forall_mem_cons.2 ⟨⟨key, rfl⟩, List.forall_mem_singleton.2 ⟨attr, rfl⟩⟩
          have hparts := Value.forall_children_list.2 hitems
          obtain ⟨s, hs⟩ := hparts part hpart
          exact hstring s (hs ▸ hnode)
      · obtain rfl : child = (getAttKey, .string s) := by simpa [Value.children] using hchild
        exact hstring s hnode
  | substitution => simp [target?] at htarget

theorem template_inj {other : String} {others : Option (Fields Value)} :
    Value.template pattern arguments = .template other others ↔
      pattern = other ∧ arguments = others := by
  refine ⟨fun h => ?_, by rintro ⟨rfl, rfl⟩; rfl⟩
  have hsame := (recognize?_template pattern arguments).symm.trans
    (h ▸ recognize?_template other others)
  simpa using hsame

/-- A pattern with an argument map is well-formed only if the pattern is a text. -/
theorem recognize?_pair {x : Value} {map : Fields Value} {found : Option Form}
    (h : recognize? (.map [(subKey, .list [x, .map map])]) = .ok found) :
    ∃ pattern, x = .string pattern ∧ found = some (.substitution pattern (some map)) := by
  rw [recognize?_subKey] at h
  simp only [ofSubBody] at h
  split at h
  · rename_i pattern hpattern
    exact ⟨pattern, asString_eq_some_iff.1 hpattern, (Except.ok.inj h).symm⟩
  · simp [Except.map] at h

end Form

/-- A rule for symbolic forms leaves an ordinary node as it is and applies its action to a form. -/
theorem Rule.ofForms_eq_ok {ν : Type} {action : FormAction ν} {path : Path} {node w : Value}
    {notes later : ν} (h : Rule.ofForms action path node notes = .ok (w, later)) :
    (Form.recognize? node = .ok none ∧ w = node ∧ later = notes) ∨
      ∃ form, Form.recognize? node = .ok (some form) ∧
        action path node form notes = (w, later) := by
  unfold Rule.ofForms at h
  split at h
  · simp at h
  · rename_i hordinary
    simp only [Except.ok.injEq, Prod.mk.injEq] at h
    exact Or.inl ⟨hordinary, h.1.symm, h.2.symm⟩
  · rename_i form hform
    exact Or.inr ⟨form, hform, Except.ok.inj h⟩

/-! ## Passes over a form -/

namespace Value

theorem isReserved_template (pattern : String) (arguments : Option (Fields Value)) :
    (template pattern arguments).isReserved = true :=
  Form.isReserved_of_recognize? (Form.recognize?_template pattern arguments)

/-- What holds of a template, of texts and of lists holds of everything in the template if it holds
of everything in the argument map. -/
theorem forall_mem_nodes_template {P : Value → Prop} {pattern : String}
    {arguments : Option (Fields Value)} (hroot : P (template pattern arguments))
    (hstring : P (string pattern)) (hlist : ∀ items, P (list items)) :
    (∀ node ∈ (template pattern arguments).nodes, P node) ↔
      ∀ map, arguments = some map → ∀ node ∈ (Value.map map).nodes, P node := by
  have hpattern : ∀ node ∈ (string pattern).nodes, P node := by
    simpa [string, nodes] using hstring
  have hbelow : ∀ {body : Value}, (∀ node ∈ (Value.map [(Form.subKey, body)]).nodes, P node) ↔
      P (.map [(Form.subKey, body)]) ∧ ∀ node ∈ body.nodes, P node := by
    intro body
    simp only [mem_nodes (v := .map _), children, List.mem_singleton, exists_eq_left,
      forall_eq_or_imp]
  unfold template at hroot ⊢
  rw [hbelow, and_iff_right hroot]
  cases arguments with
  | none => exact iff_of_true hpattern (by simp)
  | some map =>
      simp only [Option.some.injEq, forall_eq']
      constructor
      · intro h node hnode
        exact h node (mem_nodes_of_mem_children (List.mem_cons_of_mem _ List.mem_cons_self) hnode)
      · intro h node hnode
        rcases mem_nodes.1 hnode with rfl | ⟨child, hchild, hnode⟩
        · exact hlist _
        · simp only [children, indexed, List.mem_cons, List.not_mem_nil, or_false] at hchild
          rcases hchild with rfl | rfl
          · exact hpattern node hnode
          · exact h node hnode

variable {ν : Type} {action : FormAction ν} {path : Path} {v w : Value} {notes later : ν}

/-- A value that every pass leaves as it is. -/
private def IsStill (action : FormAction ν) (v : Value) : Prop :=
  ∀ path notes w later,
    Rewrites (Rule.ofForms action) path v notes w later ↔ w = v ∧ later = notes

private theorem thread_still {entries done : Fields Value} {place : String → Path}
    (h : ∀ entry ∈ entries, IsStill action entry.2) :
    Thread (fun key => Rewrites (Rule.ofForms action) (place key)) entries notes done later ↔
      done = entries ∧ later = notes := by
  induction entries generalizing done notes with
  | nil => exact Thread.thread_nil_iff
  | cons entry rest ih =>
      have hentry := h entry List.mem_cons_self
      have hrest := fun {d n} => @ih d n fun other hother => h other (List.mem_cons_of_mem _ hother)
      rw [Thread.thread_cons_iff]
      constructor
      · rintro ⟨y, after, between, rfl, head, tail⟩
        obtain ⟨rfl, rfl⟩ := (hentry _ _ _ _).1 head
        obtain ⟨rfl, rfl⟩ := hrest.1 tail
        exact ⟨rfl, rfl⟩
      · rintro ⟨rfl, rfl⟩
        exact ⟨entry.2, rest, _, rfl, (hentry _ _ _ _).2 ⟨rfl, rfl⟩, hrest.2 ⟨rfl, rfl⟩⟩

private theorem rewrites_of_still (hv : v.isCompound = true)
    (h : ∀ child ∈ v.children, IsStill action child.2) :
    Rewrites (Rule.ofForms action) path v notes w later ↔
      Rule.ofForms action path v notes = .ok (w, later) := by
  rw [rewrites_iff hv]
  constructor
  · rintro ⟨parts, between, hthread, hrule⟩
    obtain ⟨rfl, rfl⟩ := (thread_still h).1 hthread
    rwa [withChildren_children] at hrule
  · intro hrule
    refine ⟨v.children, notes, (thread_still h).2 ⟨rfl, rfl⟩, ?_⟩
    rwa [withChildren_children]

private theorem still_string (s : String) : IsStill action (.string s) :=
  fun _ _ _ _ => rewrites_scalar_iff

private theorem still_strings (strings : List String) :
    IsStill action (.list (strings.map Value.string)) := by
  intro path notes w later
  have hitems : ∀ child ∈ (Value.list (strings.map Value.string)).children,
      IsStill action child.2 := by
    refine forall_children_list.2 fun item hitem => ?_
    obtain ⟨s, -, rfl⟩ := List.mem_map.1 hitem
    exact still_string s
  rw [rewrites_of_still rfl hitems, Rule.ofForms_ordinary rfl]
  simp [eq_comm]

private theorem rewrites_single {key : String} {body : Value} {form : Form}
    (hbody : IsStill action body) (hform : Form.recognize? (.map [(key, body)]) = .ok (some form)) :
    Rewrites (Rule.ofForms action) path (.map [(key, body)]) notes w later ↔
      action path (.map [(key, body)]) form notes = (w, later) := by
  rw [rewrites_of_still rfl (by simpa [children] using hbody), Rule.ofForms_form hform]
  simp

/-- A reference or an attribute meets its action as it was written. -/
theorem rewrites_target_iff {form : Form} {key : String}
    (hform : Form.recognize? v = .ok (some form)) (htarget : form.target? = some key) :
    Rewrites (Rule.ofForms action) path v notes w later ↔
      action path v form notes = (w, later) := by
  cases form with
  | reference key =>
      obtain rfl := Form.recognize?_eq_reference_iff.1 hform
      exact rewrites_single (still_string key) hform
  | attributeOf key attr =>
      rcases Form.recognize?_eq_attributeOf hform with rfl | ⟨s, rfl, -⟩
      · exact rewrites_single (still_strings [key, attr]) hform
      · exact rewrites_single (still_string s) hform
  | substitution => simp [Form.target?] at htarget

/-- Where the arguments of a template stand. -/
def argumentsPath (path : Path) : Path := (path.push Form.subKey).push "1"

/-- Both parts of a pair under the key of a substitution are rewritten before the pair is looked
at. -/
theorem rewrites_body_iff {x y : Value} :
    Rewrites (Rule.ofForms action) path (.map [(Form.subKey, .list [x, y])]) notes w later ↔
      ∃ first second afterFirst between,
        Rewrites (Rule.ofForms action) ((path.push Form.subKey).push "0") x notes first
          afterFirst ∧
        Rewrites (Rule.ofForms action) (argumentsPath path) y afterFirst second between ∧
        Rule.ofForms action path (.map [(Form.subKey, .list [first, second])]) between =
          .ok (w, later) := by
  rw [rewrites_entry_iff]
  constructor
  · rintro ⟨body, between, hbody, hrule⟩
    obtain ⟨first, second, afterFirst, rfl, hfirst, hsecond⟩ := rewrites_two_iff.1 hbody
    exact ⟨first, second, afterFirst, between, hfirst, hsecond, hrule⟩
  · rintro ⟨first, second, afterFirst, between, hfirst, hsecond, hrule⟩
    exact ⟨_, between, rewrites_two_iff.2 ⟨first, second, afterFirst, rfl, hfirst, hsecond⟩,
      hrule⟩

/-- The parts of a pair under the key of a substitution are its pattern and its arguments, unless
the argument map is itself a form. -/
theorem rewrites_pair_iff {x : Value} {arguments : Fields Value}
    (hordinary : Fields.isReserved arguments = false) :
    Rewrites (Rule.ofForms action) path (.map [(Form.subKey, .list [x, .map arguments])]) notes
        w later ↔
      ∃ y done afterPattern between,
        Rewrites (Rule.ofForms action) ((path.push Form.subKey).push "0") x notes y afterPattern ∧
        Thread (fun key => Rewrites (Rule.ofForms action) ((argumentsPath path).push key))
          arguments afterPattern done between ∧
        Rule.ofForms action path (.map [(Form.subKey, .list [y, .map done])]) between =
          .ok (w, later) := by
  have hmap : (Value.map arguments).isReserved = false := hordinary
  rw [rewrites_body_iff]
  constructor
  · rintro ⟨y, second, afterPattern, between, hpattern, hsecond, hrule⟩
    obtain ⟨done, rfl, hdone⟩ := (rewrites_of_not_isReserved rfl hmap).1 hsecond
    exact ⟨y, done, afterPattern, between, hpattern, hdone, hrule⟩
  · rintro ⟨y, done, afterPattern, between, hpattern, hdone, hrule⟩
    exact ⟨y, .map done, afterPattern, between, hpattern,
      (rewrites_of_not_isReserved rfl hmap).2 ⟨done, rfl, hdone⟩, hrule⟩

/-- A template meets its action with rewritten arguments. -/
theorem rewrites_template_iff {pattern : String} {arguments : Option (Fields Value)}
    (hordinary : Fields.isReserved (arguments.getD []) = false) :
    Rewrites (Rule.ofForms action) path (.template pattern arguments) notes w later ↔
      ∃ done between,
        Thread (fun key => Rewrites (Rule.ofForms action) ((argumentsPath path).push key))
          (arguments.getD []) notes done between ∧
        action path (.template pattern (arguments.map fun _ => done))
          (.substitution pattern (arguments.map fun _ => done)) between = (w, later) := by
  cases arguments with
  | none =>
      have hform := Form.recognize?_template pattern none
      refine (rewrites_single (still_string pattern) hform).trans ⟨fun h => ?_, ?_⟩
      · exact ⟨[], notes, .nil notes, h⟩
      · rintro ⟨done, between, ⟨⟩, h⟩
        exact h
  | some arguments =>
      refine (rewrites_pair_iff hordinary).trans ?_
      constructor
      · rintro ⟨y, done, afterPattern, between, hpattern, hdone, hrule⟩
        obtain ⟨rfl, rfl⟩ := (still_string pattern _ _ _ _).1 hpattern
        have hform := Form.recognize?_template pattern (some done)
        exact ⟨done, between, hdone,
          Except.ok.inj ((Rule.ofForms_form hform action path between).symm.trans hrule)⟩
      · rintro ⟨done, between, hdone, haction⟩
        have hform := Form.recognize?_template pattern (some done)
        exact ⟨.string pattern, done, notes, between, (still_string pattern _ _ _ _).2 ⟨rfl, rfl⟩,
          hdone, (Rule.ofForms_form hform action path between).trans (congrArg _ haction)⟩

end Value

end StackLinker
