import StackLinker.Proofs.Dependency.Splicing

/-!
# Names that a value waits for

A name that a declared reference uses should hold its entity back until the name is free.  `Waits`
says where in a value the name stands: at a reference or an attribute, at a placeholder, or
somewhere below.  The main statement, `held_of_rewrites`, is that a pass cannot lose a name that is
not free: the pass notes it, and it still stands in the new value.

Three things a substitution can do would break this, and the definitions rule them out.

* An argument map with a reserved key as its only one is itself a form.  A pass can replace it, and
  what it asked for is gone (`IsPlain.arguments`, and the constructor `argument`).
* An argument that a pass adds has a numbered name, and it binds every placeholder of this name
  (`IsPlain.numbers`, and the constructor `placeholder`).
* A text that is put in can change how the pattern around it is read; `SafeTexts` excludes the texts
  that can.
-/

namespace StackLinker

/-- Whether a name is one that added arguments may have. -/
def Config.IsSynthetic (config : Config) (name : String) : Prop :=
  ∃ number, name = config.syntheticMarker ++ Nat.repr number

namespace Value

/-- Whether the value is a pattern, or something in its place, with an argument map. -/
def IsPair (v : Value) : Prop := ∃ x arguments, v = .list [x, .map arguments]

/-- In the substitutions of a value, no argument map is a form, and no placeholder that waits has
the name of an added argument. -/
structure IsPlain (config : Config) (v : Value) : Prop where
  arguments : ∀ x arguments, .map [(Form.subKey, .list [x, .map arguments])] ∈ v.nodes →
    Fields.isReserved arguments = false
  numbers : ∀ pattern arguments name, template pattern arguments ∈ v.nodes →
    name ∈ (Form.substitution pattern arguments).uses → config.isExempt name = false →
    ¬ config.IsSynthetic name

/-- The places where a name holds a value back. -/
inductive Waits (config : Config) (splicing : Splicing) (name : String) : Value → Prop
  | target {v : Value} {form : Form} (hform : Form.recognize? v = .ok (some form))
      (htarget : form.target? = some name) (hexempt : config.isExempt name = false) :
      Waits config splicing name v
  | placeholder {pattern : String} {arguments : Option (Fields Value)}
      (hname : name ∈ Pattern.names pattern) (hown : name ∉ Fields.keys (arguments.getD []))
      (hcovers : splicing.Covers pattern)
      (hordinary : Fields.isReserved (arguments.getD []) = false)
      (hexempt : config.isExempt name = false) (hnumber : ¬ config.IsSynthetic name) :
      Waits config splicing name (template pattern arguments)
  | part {v : Value} {child : String × Value} (hordinary : v.isReserved = false)
      (hchild : child ∈ v.children) (h : Waits config splicing name child.2) :
      Waits config splicing name v
  /-- In the place of a body; a pass can only go on if the body gives way. -/
  | body {key : String} {body : Value} (hkey : key ∈ [Form.refKey, Form.getAttKey, Form.subKey])
      (hbody : key = Form.subKey → ¬ body.IsPair) (h : Waits config splicing name body) :
      Waits config splicing name (.map [(key, body)])
  /-- In the place of a pattern; a pass can only go on if a text comes there. -/
  | pattern {x : Value} {arguments : Fields Value} (h : Waits config splicing name x) :
      Waits config splicing name (.map [(Form.subKey, .list [x, .map arguments])])
  | argument {x : Value} {arguments : Fields Value} {argument : String × Value}
      (hordinary : Fields.isReserved arguments = false) (hargument : argument ∈ arguments)
      (h : Waits config splicing name argument.2) :
      Waits config splicing name (.map [(Form.subKey, .list [x, .map arguments])])

variable {config : Config} {splicing : Splicing} {name : String} {v : Value}

theorem IsPlain.of_mem_children (h : v.IsPlain config) {child : String × Value}
    (hchild : child ∈ v.children) : child.2.IsPlain config := by
  have hnodes : ∀ node ∈ child.2.nodes, node ∈ v.nodes := fun node =>
    mem_nodes_of_mem_children hchild
  exact ⟨fun x arguments hnode => h.arguments x arguments (hnodes _ hnode),
    fun pattern arguments name hnode => h.numbers pattern arguments name (hnodes _ hnode)⟩

/-- The declared arguments of a plain template are no form. -/
theorem IsPlain.isReserved_arguments {pattern : String} {arguments : Option (Fields Value)}
    (h : (template pattern arguments).IsPlain config) :
    Fields.isReserved (arguments.getD []) = false := by
  cases arguments with
  | none => rfl
  | some arguments => exact h.arguments (.string pattern) arguments (self_mem_nodes _)

/-- Whether a value is plain, where every name that starts like an added argument is refused. -/
def looksPlain (config : Config) (v : Value) : Bool :=
  v.nodes.all fun node =>
    (match node with
      | .map [(_, .list [_, .map arguments])] => !Fields.isReserved arguments
      | _ => true) &&
    match Form.peek node with
    | some (.substitution pattern arguments) =>
      (Form.substitution pattern arguments).uses.all fun name =>
        !config.syntheticMarker.toList.isPrefixOf name.toList
    | _ => true

theorem isPlain_of_looksPlain (h : v.looksPlain config = true) : v.IsPlain config := by
  simp only [looksPlain, List.all_eq_true, Bool.and_eq_true] at h
  refine ⟨?arguments, ?numbers⟩
  case arguments =>
    intro x arguments hnode
    simpa using (h _ hnode).1
  case numbers =>
    rintro pattern arguments name hnode hname - ⟨number, rfl⟩
    have hcheck := (h _ hnode).2
    rw [Form.peek_eq_some_iff.2 (Form.recognize?_template pattern arguments)] at hcheck
    have hnumber := List.all_eq_true.1 hcheck _ hname
    have hprefix : config.syntheticMarker.toList <+:
        (config.syntheticMarker ++ Nat.repr number).toList := by
      rw [String.toList_append]
      exact List.prefix_append _ _
    rw [List.isPrefixOf_iff_prefix.2 hprefix] at hnumber
    exact Bool.false_ne_true hnumber

/-- In an ordinary node a name stands in one of the parts. -/
theorem waits_iff_of_not_isReserved (hordinary : v.isReserved = false) :
    Waits config splicing name v ↔ ∃ child ∈ v.children, Waits config splicing name child.2 := by
  constructor
  · intro h
    cases h with
    | target hform => simp [Form.isReserved_of_recognize? hform] at hordinary
    | placeholder => simp [isReserved_template] at hordinary
    | part _ hchild h => exact ⟨_, hchild, h⟩
    | body hkey =>
        simp only [isReserved, Fields.isReserved, decide_eq_false_iff_not] at hordinary
        exact absurd hkey hordinary
    | pattern => simp [isReserved, Fields.isReserved] at hordinary
    | argument => simp [isReserved, Fields.isReserved] at hordinary
  · rintro ⟨child, hchild, h⟩
    exact .part hordinary hchild h

theorem not_waits_scalar (s : Scalar) : ¬ Waits config splicing name (.scalar s) := by
  rw [waits_iff_of_not_isReserved rfl]
  simp [children]

theorem waits_list_iff {items : List Value} :
    Waits config splicing name (.list items) ↔ ∃ item ∈ items, Waits config splicing name item := by
  rw [waits_iff_of_not_isReserved rfl]
  exact exists_children_list

theorem not_waits_strings (first second : String) :
    ¬ Waits config splicing name (.list [.string first, .string second]) := by
  rw [waits_list_iff]
  rintro ⟨item, hitem, h⟩
  simp only [List.mem_cons, List.not_mem_nil, or_false] at hitem
  rcases hitem with rfl | rfl <;> exact not_waits_scalar _ h

/-- A body that waits is a pair, if the node is well-formed. -/
theorem isPair_of_waits {key : String} {body : Value} {found : Option Form}
    (hkey : key ∈ [Form.refKey, Form.getAttKey, Form.subKey]) (h : Waits config splicing name body)
    (hform : Form.recognize? (.map [(key, body)]) = .ok found) :
    key = Form.subKey ∧ body.IsPair := by
  have hbody : ∀ {α : Type} {result : Except Malformation α} {found : Option α},
      result.map some = .ok found → ∃ a, result = .ok a := by
    intro α result found hresult
    cases result with
    | error e => simp [Except.map] at hresult
    | ok a => exact ⟨a, rfl⟩
  simp only [List.mem_cons, List.not_mem_nil, or_false] at hkey
  rcases hkey with rfl | rfl | rfl
  · rw [Form.recognize?_refKey] at hform
    obtain ⟨form, hform⟩ := hbody hform
    obtain ⟨s, rfl, -⟩ := Form.ofRefBody_eq_ok hform
    exact absurd h (not_waits_scalar (.string s))
  · rw [Form.recognize?_getAttKey] at hform
    obtain ⟨form, hform⟩ := hbody hform
    obtain ⟨first, second, -, rfl | ⟨s, rfl, -⟩⟩ := Form.ofGetAttBody_eq_ok hform
    · exact absurd h (not_waits_strings first second)
    · exact absurd h (not_waits_scalar (.string s))
  · rw [Form.recognize?_subKey] at hform
    obtain ⟨form, hform⟩ := hbody hform
    obtain ⟨pattern, arguments, -, hshape⟩ := Form.ofSubBody_eq_ok hform
    simp only [template, Value.map.injEq, List.cons.injEq, Prod.mk.injEq, true_and,
      and_true] at hshape
    subst hshape
    cases arguments with
    | none => exact absurd h (not_waits_scalar (.string pattern))
    | some arguments => exact ⟨rfl, .string pattern, arguments, rfl⟩

private theorem waits_of_mem_ownUses (hplain : v.IsPlain config)
    (hcovers : ∀ pattern arguments, template pattern arguments ∈ v.nodes → splicing.Covers pattern)
    (h : name ∈ v.ownUses config) : Waits config splicing name v := by
  obtain ⟨form, hform, hname, hexempt⟩ := mem_ownUses.1 h
  cases form with
  | reference key =>
      obtain rfl : name = key := by simpa [Form.uses] using hname
      exact .target hform rfl hexempt
  | attributeOf key attr =>
      obtain rfl : name = key := by simpa [Form.uses] using hname
      exact .target hform rfl hexempt
  | substitution pattern arguments =>
      obtain rfl := Form.recognize?_eq_substitution_iff.1 hform
      obtain ⟨hmem, hown⟩ := Form.mem_uses_substitution.1 hname
      exact .placeholder hmem hown (hcovers pattern arguments (self_mem_nodes _))
        hplain.isReserved_arguments hexempt
        (hplain.numbers pattern arguments name (self_mem_nodes _) hname hexempt)

/-- A value waits for the names that are written in it. -/
theorem waits_of_mem_uses (hplain : v.IsPlain config)
    (hcovers : ∀ pattern arguments, template pattern arguments ∈ v.nodes → splicing.Covers pattern)
    (h : name ∈ v.uses config) : Waits config splicing name v := by
  induction v using induction_on_children with
  | h v ih =>
      have hparts : ∀ child ∈ v.children, name ∈ child.2.uses config →
          Waits config splicing name child.2 := by
        intro child hchild hname
        refine ih child hchild (hplain.of_mem_children hchild) ?_ hname
        intro pattern arguments hnode
        exact hcovers pattern arguments (mem_nodes_of_mem_children hchild hnode)
      by_cases hordinary : v.isReserved = false
      · obtain ⟨child, hchild, hname⟩ := (mem_uses_of_not_isReserved hordinary).1 h
        exact .part hordinary hchild (hparts child hchild hname)
      · -- A reserved node uses names itself, and its body may use others.
        obtain ⟨key, hkey, body, rfl⟩ := exists_of_isReserved (by simpa using hordinary)
        rcases mem_uses.1 h with hown | ⟨child, hchild, hname⟩
        · exact waits_of_mem_ownUses hplain hcovers hown
        · have hbody := hparts child hchild hname
          obtain rfl : child = (key, body) := by simpa [children] using hchild
          by_cases hpair : key = Form.subKey ∧ body.IsPair
          · obtain ⟨rfl, x, arguments, rfl⟩ := hpair
            have hordinary := hplain.arguments x arguments (self_mem_nodes _)
            have hmap : (Value.map arguments).isReserved = false := hordinary
            obtain ⟨item, hitem, hwaits⟩ := waits_list_iff.1 hbody
            simp only [List.mem_cons, List.not_mem_nil, or_false] at hitem
            rcases hitem with rfl | rfl
            · exact .pattern hwaits
            · obtain ⟨argument, hargument, h⟩ := (waits_iff_of_not_isReserved hmap).1 hwaits
              exact .argument hordinary hargument h
          · exact .body hkey (fun hsub hpair' => hpair ⟨hsub, hpair'⟩) hbody

end Value

/-! ## A pass loses no name -/

/-- Whatever is put into a pattern on behalf of the free entities is admitted. -/
structure SafeTexts (config : Config) (splicing : Splicing) (free : List Entity) : Prop where
  values : ∀ target ∈ free, splicing.names target.fullName →
    ∀ text, target.reference.inserted? = some text → splicing.Admits text
  numbered : ∀ number,
    splicing.Admits (Placeholder.mk (config.syntheticMarker ++ Nat.repr number) none).text
  resources : ∀ target ∈ free, ∀ attr : String, '}' ∉ attr.toList →
    splicing.Admits (Placeholder.mk (target.resourceName config) (some attr)).text

namespace Surroundings

open Value

variable {around : Surroundings} {splicing : Splicing} {source name : String} {path : Path}
  {v w : Value} {outcome later : Outcome}

theorem admits_of_mem_insertions (hsafe : SafeTexts around.config splicing around.free)
    {pattern text : String} {start : Filling} (hcovers : splicing.Covers pattern)
    (h : text ∈ Pattern.insertions (around.answer source path) (Pattern.pieces pattern) start) :
    splicing.Admits text := by
  obtain ⟨hole, placeholder, asked, hhole, hplaceholder, -, htext⟩ :=
    Pattern.of_mem_insertions (growsTo_answer around source path) h
  have hname : splicing.names placeholder.name :=
    hcovers.names _ (Pattern.mem_names.2 ⟨hole, placeholder, hhole, hplaceholder, rfl⟩)
  have hvalue : ∀ {target : Entity}, around.meaning placeholder.name = .free target →
      target.reference.inserted? = some text → splicing.Admits text := by
    intro target hfree
    obtain ⟨-, hfind⟩ := meaning_eq_free_iff.1 hfree
    refine hsafe.values target (Entity.mem_of_find? hfind) ?_ text
    rwa [Entity.fullName_of_find? hfind]
  have hanswered := answered around source path placeholder asked
  rw [htext] at hanswered
  generalize (around.answer source path placeholder asked).2 = after at hanswered
  cases hanswered with
  | text hfree hreference => exact hvalue hfree (by rw [hreference, inserted?_scalar])
  | forward hfree hreference hnext =>
      exact hvalue hfree (inserted?_of_placeholder hreference hnext)
  | @argument target number => exact hsafe.numbered number
  | @attributeOf target attr hfree hattr =>
      refine hsafe.resources target (mem_free_of_meaning hfree) attr fun hbrace => ?_
      refine Pattern.notMem_of_hole_mem hhole ?_
      rw [← Pattern.inner_of_ofHole? hplaceholder]
      simp [Pattern.inner, hattr, hbrace]

/-- A filled pattern is covered like the one before. -/
theorem covers_fill (hsafe : SafeTexts around.config splicing around.free) {pattern : String}
    {start : Filling} (hcovers : splicing.Covers pattern) :
    Pattern.pieces (Pattern.fill (around.answer source path) pattern start).1 =
        Pattern.filledPieces (around.answer source path) (Pattern.pieces pattern) start ∧
      splicing.Covers (Pattern.fill (around.answer source path) pattern start).1 := by
  have hadmits := fun text => @admits_of_mem_insertions around splicing source path hsafe pattern
    text start hcovers
  have hpieces := Pattern.pieces_fill (fun text hmem => (hadmits text hmem).closed)
    (hcovers.join.imp_right fun hsolid text hmem => (hadmits text hmem).solid hsolid)
  refine ⟨hpieces, ?names, ?join⟩
  case names =>
    intro name hname
    obtain ⟨inner, placeholder, hmem, hhole, rfl⟩ := Pattern.mem_names.1 hname
    rw [hpieces] at hmem
    rcases Pattern.mem_filledPieces hmem with hold | ⟨text, htext, hnew⟩
    · exact hcovers.names _ (Pattern.mem_names.2 ⟨inner, placeholder, hold, hhole, rfl⟩)
    · exact (hadmits text htext).names _
        (Pattern.mem_names.2 ⟨inner, placeholder, hnew, hhole, rfl⟩)
  case join =>
    by_cases hsolid : splicing.solid
    · exact Or.inr hsolid
    · rw [hpieces]
      refine Or.inl (Pattern.isSpaced_filledPieces (hcovers.join.resolve_right hsolid) ?_)
      exact fun text hmem => ⟨(hadmits text hmem).closed,
        (hadmits text hmem).join.resolve_right hsolid⟩

/-- Added arguments bind numbered names only. -/
theorem notMem_keys_append {declared added : Fields Value} (hown : name ∉ declared.keys)
    (hnumber : ¬ around.config.IsSynthetic name)
    (hadded : ∀ argument ∈ added, around.IsAdded argument) :
    name ∉ Fields.keys (declared ++ added) := by
  rw [Fields.keys, List.map_append, List.mem_append]
  rintro (hmem | hmem)
  · exact hown hmem
  · obtain ⟨argument, hargument, hname⟩ := List.mem_map.1 hmem
    obtain ⟨number, hsynthetic⟩ := (hadded argument hargument).name
    exact hnumber ⟨number, hname ▸ hsynthetic⟩

/-- A name in a pattern that nothing settles is noted, if no added argument can have it. -/
theorem noted_fill {pattern : String} {arguments : Option (Fields Value)}
    (hname : name ∈ Pattern.names pattern) (hown : name ∉ Fields.keys (arguments.getD []))
    (hnumber : ¬ around.config.IsSynthetic name) (hopen : (around.meaning name).isOpen = true) :
    name ∈ (Pattern.fill (around.answer source path) pattern
      (.start arguments outcome)).2.outcome.unresolved := by
  refine mem_unresolved_fill hname ?_ hopen
  obtain ⟨added, hadded, hall⟩ :=
    (growsTo_fill around source path pattern (.start arguments outcome)).arguments
  rw [hadded]
  exact notMem_keys_append hown hnumber hall

/-- A name in a pattern that is not settled stays in the filled pattern. -/
theorem mem_names_fill (hsafe : SafeTexts around.config splicing around.free) {pattern : String}
    {arguments : Option (Fields Value)} (hcovers : splicing.Covers pattern)
    (hname : name ∈ Pattern.names pattern) (hown : name ∉ Fields.keys (arguments.getD []))
    (hnumber : ¬ around.config.IsSynthetic name) (hopen : (around.meaning name).isOpen = true) :
    name ∈ Pattern.names
        (Pattern.fill (around.answer source path) pattern (.start arguments outcome)).1 := by
  obtain ⟨inner, placeholder, hmem, hhole, rfl⟩ := Pattern.mem_names.1 hname
  obtain ⟨asked, hfrom, -, hsub⟩ :=
    Pattern.replacement_subset_filledPieces (growsTo_answer around source path) hmem hhole
      (Filling.start arguments outcome)
  obtain ⟨added, hadded, hall⟩ := hfrom.arguments
  have hasked : placeholder.name ∉ asked.arguments.keys := by
    rw [hadded]
    exact notMem_keys_append hown hnumber hall
  have hnone := (@answer_of_isOpen around source path placeholder asked hasked hopen).1
  have hread := (@covers_fill around splicing source path hsafe pattern
    (.start arguments outcome) hcovers).1
  have hpieces := hsub (show .hole inner ∈
    Pattern.replacement inner (around.answer source path placeholder asked).1 by
      simp [Pattern.replacement, hnone])
  rw [← hread] at hpieces
  exact Pattern.mem_names.2 ⟨inner, placeholder, hpieces, hhole, rfl⟩

/-- Only a map can turn into a map. -/
private theorem exists_map_of_rewrites {entries : Fields Value}
    (h : v.Rewrites (around.rule source) path outcome (.map entries) later) :
    ∃ old, v = .map old := by
  cases v with
  | null => exact absurd h not_rewrites_null
  | scalar s => simp at h
  | list items =>
      obtain ⟨parts, hw, -⟩ := (rewrites_of_not_isReserved rfl rfl).1 h
      simp [withChildren] at hw
  | map old => exact ⟨old, rfl⟩
  | record header metadata properties =>
      obtain ⟨parts, hw, -⟩ := (rewrites_of_not_isReserved rfl rfl).1 h
      unfold withChildren at hw
      split at hw <;> simp_all

/-- Only a pair can turn into a pair, apart from forms. -/
private theorem isPair_of_rewrites (hordinary : v.isReserved = false)
    (h : v.Rewrites (around.rule source) path outcome w later) (hpair : w.IsPair) : v.IsPair := by
  obtain ⟨x, arguments, rfl⟩ := hpair
  cases v with
  | null => exact absurd h not_rewrites_null
  | scalar s => simp at h
  | map entries =>
      obtain ⟨parts, hw, -⟩ := (rewrites_of_not_isReserved rfl hordinary).1 h
      simp [withChildren] at hw
  | record header metadata properties =>
      obtain ⟨parts, hw, -⟩ := (rewrites_of_not_isReserved rfl rfl).1 h
      unfold withChildren at hw
      split at hw <;> simp_all
  | list items =>
      obtain ⟨parts, hw, hthread⟩ := (rewrites_of_not_isReserved rfl rfl).1 h
      have hitems : parts.map (·.2) = [x, .map arguments] := by
        simpa [withChildren] using hw.symm
      have hkeys := hthread.keys_eq
      obtain ⟨⟨k₁, y⟩, rest, rfl, rfl, hrest⟩ := List.map_eq_cons_iff.1 hitems
      obtain ⟨⟨k₂, z⟩, nothing, rfl, rfl, hnothing⟩ := List.map_eq_cons_iff.1 hrest
      obtain rfl := List.map_eq_nil_iff.1 hnothing
      rcases items with _ | ⟨a, _ | ⟨b, _ | _⟩⟩ <;> simp [children, indexed] at hkeys
      obtain ⟨y', tail, between, hparts, -, htail⟩ := Thread.thread_cons_iff.1 hthread
      obtain ⟨z', tail', later', hparts', hz, -⟩ := Thread.thread_cons_iff.1 htail
      simp only [List.cons.injEq, Prod.mk.injEq] at hparts
      obtain ⟨-, rfl⟩ := hparts
      simp only [List.cons.injEq, Prod.mk.injEq] at hparts'
      obtain ⟨⟨-, rfl⟩, -⟩ := hparts'
      obtain ⟨old, rfl⟩ := exists_map_of_rewrites hz
      exact ⟨a, old, rfl⟩

/-- How a name stays in a value that a pass goes over. -/
structure Held (config : Config) (splicing : Splicing) (name : String) (v w : Value)
    (later : Outcome) : Prop where
  waits : Waits config splicing name w
  noted : name ∈ later.unresolved
  isPair : w.IsPair → v.IsPair

private theorem held_target {form : Form} (hform : Form.recognize? v = .ok (some form))
    (htarget : form.target? = some name) (hexempt : around.config.isExempt name = false)
    (hopen : (around.meaning name).isOpen = true)
    (h : around.settle source path v form outcome = (w, later)) :
    Held around.config splicing name v w later := by
  have hstays : around.settle source path v form outcome =
      (v, outcome.leave (around.meaning name) name path) := by
    cases form with
    | reference key =>
        obtain rfl := Option.some.inj htarget
        simp only [settle, reference]
        cases hmeaning : around.meaning key with
        | free target => simp [hmeaning, Meaning.isOpen] at hopen
        | _ => rfl
    | attributeOf key attr =>
        obtain rfl := Option.some.inj htarget
        simp only [settle, attributeOf]
        cases hmeaning : around.meaning key with
        | free target => simp [hmeaning, Meaning.isOpen] at hopen
        | _ => rfl
    | substitution => simp [Form.target?] at htarget
  rw [hstays] at h
  simp only [Prod.mk.injEq] at h
  obtain ⟨rfl, rfl⟩ := h
  exact ⟨.target hform htarget hexempt, Outcome.mem_unresolved_leave.2 (Or.inr ⟨hopen, rfl⟩), id⟩

private theorem not_isPair_map (entries : Fields Value) : ¬ (Value.map entries).IsPair := by
  rintro ⟨x, arguments, h⟩
  simp at h

private theorem held_placeholder (hsafe : SafeTexts around.config splicing around.free)
    {pattern : String} {arguments : Option (Fields Value)} (hcovers : splicing.Covers pattern)
    (hname : name ∈ Pattern.names pattern) (hown : name ∉ Fields.keys (arguments.getD []))
    (hordinary : Fields.isReserved (arguments.getD []) = false)
    (hexempt : around.config.isExempt name = false) (hnumber : ¬ around.config.IsSynthetic name)
    (hopen : (around.meaning name).isOpen = true)
    (h : (template pattern arguments).Rewrites (around.rule source) path outcome w later) :
    Held around.config splicing name (template pattern arguments) w later := by
  obtain ⟨done, between, hthread, haction⟩ := (rewrites_template_iff hordinary).1 h
  have hkeys : Fields.keys done = Fields.keys (arguments.getD []) := hthread.keys_eq
  have hdone := getD_map_of_keys_eq hkeys
  have hown' : name ∉ Fields.keys ((arguments.map fun _ => done).getD []) := by
    rw [hdone, hkeys]
    exact hown
  obtain ⟨text, filling, hfill, hnotes, hresult⟩ := substitution_cases around source path
    (template pattern (arguments.map fun _ => done)) pattern (arguments.map fun _ => done) between
  simp only [settle] at haction
  simp only [haction] at hnotes hresult
  subst hnotes
  have hkept := @mem_names_fill around splicing source name path between hsafe
    pattern (arguments.map fun _ => done) hcovers hname hown' hnumber hopen
  have hnoted := @noted_fill around source name path between pattern
    (arguments.map fun _ => done) hname hown' hnumber hopen
  obtain ⟨-, hcovers'⟩ := @covers_fill around splicing source path hsafe pattern
    (.start (arguments.map fun _ => done) between) hcovers
  have hgrows := growsTo_fill around source path pattern
    (.start (arguments.map fun _ => done) between)
  rw [hfill] at hkept hnoted hcovers' hgrows
  refine ⟨?waits, hnoted, ?isPair⟩
  case waits =>
    rcases hresult with ⟨-, hholes, -⟩ | ⟨-, hw⟩ | ⟨-, hw⟩
    · -- A plain text has no holes, but the name still stands in one.
      obtain ⟨inner, placeholder, hmem, -, -⟩ := Pattern.mem_names.1 hkept
      rw [Pattern.hasHoles, List.any_eq_false] at hholes
      exact absurd rfl (hholes _ hmem)
    · obtain ⟨added, hadded, hall⟩ := hgrows.arguments
      have hstart : filling.arguments = done ++ added := hadded.trans (congrArg (· ++ added) hdone)
      rw [hw, sub_eq_template]
      refine .placeholder hkept ?_ hcovers' ?_ hexempt hnumber
      · rw [getD_ifEmpty, hstart]
        exact notMem_keys_append (hdone ▸ hown') hnumber hall
      · rw [getD_ifEmpty, hstart]
        exact isReserved_of_done hthread hordinary hall
    · rw [hw]
      refine .placeholder hname hown' hcovers ?_ hexempt hnumber
      rw [hdone, Fields.isReserved_congr hkeys, hordinary]
  case isPair =>
    intro hpair
    rcases hresult with ⟨-, -, hw⟩ | ⟨-, hw⟩ | ⟨-, hw⟩ <;> rw [hw] at hpair
    · obtain ⟨x, entries, hshape⟩ := hpair
      simp [Value.string] at hshape
    · exact absurd hpair (not_isPair_map _)
    · exact absurd hpair (not_isPair_map _)

/-- A part of an argument stays in the substitution, however its pattern is filled. -/
private theorem held_argument {x : Value} {arguments : Fields Value} {argument : String × Value}
    (hordinary : Fields.isReserved arguments = false) (hargument : argument ∈ arguments)
    (ih : ∀ {path outcome w later}, argument.2.Rewrites (around.rule source) path outcome w later →
      Held around.config splicing name argument.2 w later)
    (h : (Value.map [(Form.subKey, .list [x, .map arguments])]).Rewrites (around.rule source) path
      outcome w later) :
    Held around.config splicing name (.map [(Form.subKey, .list [x, .map arguments])]) w later := by
  obtain ⟨y, done, afterPattern, between, -, hthread, hrule⟩ := (rewrites_pair_iff hordinary).1 h
  obtain ⟨z, n, m, hz, hpart, -, hm⟩ :=
    hthread.exists_of_mem_left (fun _ hstep => growsTo_rewrites hstep) hargument
  have hheld := ih hpart
  have hnoted : name ∈ later.unresolved :=
    (trans_of (Outcome.GrowsTo around) hm (growsTo_rule hrule)).unresolved_subset hheld.noted
  have hdone : ∀ {added : Fields Value} {s : String},
      (∀ argument ∈ added, around.IsAdded argument) →
      Waits around.config splicing name
        (.map [(Form.subKey, .list [.string s, .map (done ++ added)])]) := by
    intro added s hadded
    exact .argument (isReserved_of_done hthread hordinary hadded) (List.mem_append_left _ hz)
      hheld.waits
  have hcases := Rule.ofForms_eq_ok hrule
  have hform : ∃ pattern, y = .string pattern ∧ around.settle source path
      (.map [(Form.subKey, .list [y, .map done])]) (.substitution pattern (some done)) between =
        (w, later) := by
    rcases hcases with ⟨hform, -, -⟩ | ⟨form, hform, hsettle⟩
    · obtain ⟨pattern, -, hnone⟩ := Form.recognize?_pair hform
      simp at hnone
    · obtain ⟨pattern, rfl, hsome⟩ := Form.recognize?_pair hform
      exact ⟨pattern, rfl, Option.some.inj hsome ▸ hsettle⟩
  obtain ⟨pattern, rfl, hsettle⟩ := hform
  obtain ⟨text, filling, hfill, -, hresult⟩ := substitution_cases around source path
    (.map [(Form.subKey, .list [.string pattern, .map done])]) pattern (some done) between
  simp only [settle] at hsettle
  rw [hsettle] at hresult
  have hgrows := growsTo_fill around source path pattern (.start (some done) between)
  rw [hfill] at hgrows
  obtain ⟨added, hadded, hall⟩ := hgrows.arguments
  have hstart : filling.arguments = done ++ added := hadded
  have hne : filling.arguments ≠ [] := by
    rw [hstart]
    exact List.append_ne_nil_of_left_ne_nil (List.ne_nil_of_mem hz) added
  rcases hresult with ⟨hnil, -, -⟩ | ⟨-, hw⟩ | ⟨-, hw⟩
  · exact absurd hnil hne
  · have hsub : w = .map [(Form.subKey, .list [.string text, .map (done ++ added)])] := by
      have hfalse : (done ++ added).isEmpty = false := by
        rw [← hstart]
        simpa using hne
      rw [show w = sub text filling.arguments from hw, hstart, sub, hfalse]
      rfl
    rw [hsub]
    exact ⟨hdone hall, hnoted, fun hpair => absurd hpair (not_isPair_map _)⟩
  · rw [show w = .map [(Form.subKey, .list [.string pattern, .map done])] from hw]
    have hwaits := @hdone [] pattern (by simp)
    rw [List.append_nil] at hwaits
    exact ⟨hwaits, hnoted, fun hpair => absurd hpair (not_isPair_map _)⟩

/-- A name that is not settled cannot be lost: it is noted, and the new value waits for it. -/
theorem held_of_rewrites (hsafe : SafeTexts around.config splicing around.free)
    (hopen : (around.meaning name).isOpen = true) (hwaits : Waits around.config splicing name v)
    (h : v.Rewrites (around.rule source) path outcome w later) :
    Held around.config splicing name v w later := by
  induction hwaits generalizing path outcome w later with
  | target hform htarget hexempt =>
      exact held_target hform htarget hexempt hopen ((rewrites_target_iff hform htarget).1 h)
  | placeholder hname hown hcovers hordinary hexempt hnumber =>
      exact held_placeholder hsafe hcovers hname hown hordinary hexempt hnumber hopen h
  | @part v child hordinary hchild _ ih =>
      have hv : v.isCompound = true := by
        cases v <;> first | rfl | simp [children] at hchild
      obtain ⟨parts, rfl, hthread⟩ := (rewrites_of_not_isReserved hv hordinary).1 h
      obtain ⟨y, n, m, hy, hpart, -, hm⟩ :=
        hthread.exists_of_mem_left (fun _ hstep => growsTo_rewrites hstep) hchild
      have hheld := ih hpart
      refine ⟨?_, hm.unresolved_subset hheld.noted, isPair_of_rewrites hordinary h⟩
      rw [waits_iff_of_not_isReserved (by rw [isReserved_withChildren hthread.keys_eq, hordinary]),
        children_withChildren hthread.keys_eq]
      exact ⟨_, hy, hheld.waits⟩
  | @body key body hkey hbody _ ih =>
      -- The body still waits, so the node is malformed and the pass cannot have come to its end.
      obtain ⟨body', between, hrewrites, hrule⟩ := rewrites_entry_iff.1 h
      have hheld := ih hrewrites
      have hpair : key = Form.subKey ∧ body'.IsPair := by
        rcases Rule.ofForms_eq_ok hrule with ⟨hform, -, -⟩ | ⟨form, hform, -⟩ <;>
          exact isPair_of_waits hkey hheld.waits hform
      exact absurd (hheld.isPair hpair.2) (hbody hpair.1)
  | @pattern x arguments _ ih =>
      -- The pass comes to its end only if a text stands in this place, and texts do not wait.
      obtain ⟨body', between, hrewrites, hrule⟩ := rewrites_entry_iff.1 h
      obtain ⟨items, rfl, hitems⟩ := (rewrites_of_not_isReserved rfl rfl).1 hrewrites
      obtain ⟨y, tail, afterPattern, rfl, hpattern, -⟩ := Thread.thread_cons_iff.1 hitems
      have hheld := ih hpattern
      have htext : ∃ pattern, y = .string pattern := by
        have hbody : Waits around.config splicing name (.list (y :: tail.map (·.2))) :=
          waits_list_iff.2 ⟨y, List.mem_cons_self, hheld.waits⟩
        have hfound : ∃ found, Form.recognize?
            (.map [(Form.subKey, .list (y :: tail.map (·.2)))]) = .ok found := by
          rcases Rule.ofForms_eq_ok hrule with ⟨hform, -, -⟩ | ⟨form, hform, -⟩
          · exact ⟨_, hform⟩
          · exact ⟨_, hform⟩
        obtain ⟨found, hform⟩ := hfound
        obtain ⟨-, z, map, hlist⟩ := isPair_of_waits (by simp) hbody hform
        rw [hlist] at hform
        obtain ⟨pattern, rfl, -⟩ := Form.recognize?_pair hform
        simp only [Value.list.injEq, List.cons.injEq] at hlist
        exact ⟨pattern, hlist.1⟩
      obtain ⟨pattern, rfl⟩ := htext
      exact absurd hheld.waits (not_waits_scalar _)
  | argument hordinary hargument _ ih =>
      exact held_argument hordinary hargument ih h

end Surroundings

end StackLinker
