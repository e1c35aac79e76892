import StackLinker.Proofs.Form.Shapes
import StackLinker.Proofs.Value.Mapping

/-!
# Places in a value

A path leads from a value through its parts to a single node (`Value.at?`).  This file follows a
node that stands at a place through a pass: if what the pass makes of it is a form again, then it
stands at the same place afterwards (`exists_standsAt_of_rewrites`), and of a reference or an
attribute the action alone says what it becomes (`standsAt_of_rewrites`).

## Strategy

By induction on the path, the node has been settled below a part of the root when the rule reaches
the root.  An ordinary root keeps its parts.  A root that stands for a form is given up for
something else, so its parts have to be looked at.

* The parts of a reference and of an attribute are texts, and no node stands below a text.
* A substitution has nodes below its argument map only.  Its action may write another pattern and
  add arguments, but the arguments that are there keep their places (`FormAction.KeepsArguments`).

The argument map itself is left out: where it is a form, added arguments turn it into another map.
-/

namespace StackLinker

namespace Thread

variable {ν : Type} {R : String → Value → ν → Value → ν → Prop} {before after : Fields Value}
  {notes later : ν}

/-- What is found under a key is rewritten and found under the same key, and its notes lie between
the first and the last. -/
theorem exists_find? {le : ν → ν → Prop} [IsPreorder ν le] (h : Thread R before notes after later)
    (hR : ∀ {key x n y m}, (key, x) ∈ before → R key x n y m → le n m) {key : String} {x : Value}
    (hfind : Fields.find? key before = some x) :
    ∃ y n m, Fields.find? key after = some y ∧ R key x n y m ∧ le notes n ∧ le m later := by
  induction h with
  | nil => simp [Fields.find?] at hfind
  | @cons first x' y rest done n m later head tail ih =>
      have hrest : ∀ {key x n y m}, (key, x) ∈ rest → R key x n y m → le n m :=
        fun hmem hstep => hR (List.mem_cons_of_mem _ hmem) hstep
      by_cases hkey : first = key
      · subst hkey
        simp only [Fields.find?, if_true, Option.some.injEq] at hfind
        subst hfind
        exact ⟨y, n, m, by simp [Fields.find?], head, refl_of le n, tail.grows hrest⟩
      · simp only [Fields.find?, hkey, if_false] at hfind ⊢
        obtain ⟨z, n', m', hz, hstep, hn, hm⟩ := ih hrest hfind
        exact ⟨z, n', m', hz, hstep, trans_of le (hR List.mem_cons_self head) hn, hm⟩

end Thread

namespace Value

variable {v w x node child : Value} {segment : String} {place rest : Path}

/-- The node that stands at a place below a value. -/
def at? : Path → Value → Option Value
  | [], v => some v
  | segment :: rest, v => (Fields.find? segment v.children).bind (at? rest)

/-- Whether a value is a substitution with a place for arguments: a map with the key of a
substitution alone and a list of two under it. -/
def TakesArguments (v : Value) : Prop :=
  ∃ first second, v = .map [(Form.subKey, .list [first, second])]

/-- Whether a place is that of the argument map of a substitution: the second of a pair under the
key of a substitution. -/
def IsArgumentMap (v : Value) (place : Path) : Prop :=
  ∃ front pair, place = front ++ [Form.subKey, "1"] ∧ v.at? front = some pair ∧ pair.TakesArguments

/-- A node stands at a place that is not that of an argument map. -/
structure StandsAt (v : Value) (place : Path) (node : Value) : Prop where
  at_eq : v.at? place = some node
  ordinary : ¬ v.IsArgumentMap place

@[simp] theorem standsAt_nil_iff : v.StandsAt [] node ↔ node = v := by
  constructor
  · intro h
    exact (Option.some.inj h.at_eq).symm
  · rintro rfl
    refine ⟨rfl, ?_⟩
    rintro ⟨front, pair, hplace, -⟩
    simp at hplace

private theorem isArgumentMap_cons_iff (hchild : Fields.find? segment v.children = some child) :
    v.IsArgumentMap (segment :: rest) ↔
      (rest = ["1"] ∧ v.TakesArguments) ∨ child.IsArgumentMap rest := by
  constructor
  · rintro ⟨front, pair, hplace, hat, hpair⟩
    cases front with
    | nil =>
        simp only [List.nil_append, List.cons.injEq] at hplace
        exact Or.inl ⟨hplace.2, Option.some.inj hat ▸ hpair⟩
    | cons first front =>
        simp only [List.cons_append, List.cons.injEq] at hplace
        obtain ⟨rfl, rfl⟩ := hplace
        exact Or.inr ⟨front, pair, rfl, by simpa [at?, hchild] using hat, hpair⟩
  · rintro (⟨rfl, hpair⟩ | ⟨front, pair, rfl, hat, hpair⟩)
    · obtain ⟨first, second, rfl⟩ := hpair
      obtain ⟨rfl, -⟩ := Fields.find?_single_iff.1 hchild
      exact ⟨[], _, rfl, rfl, first, second, rfl⟩
    · exact ⟨segment :: front, pair, rfl, by simpa [at?, hchild] using hat, hpair⟩

/-- What stands below a node stands below one of its parts. -/
theorem standsAt_cons_iff : v.StandsAt (segment :: rest) node ↔
    ∃ child, Fields.find? segment v.children = some child ∧ child.StandsAt rest node ∧
      ¬ (rest = ["1"] ∧ v.TakesArguments) := by
  constructor
  · rintro ⟨hat, hordinary⟩
    obtain ⟨child, hchild, hat⟩ := Option.bind_eq_some_iff.1 hat
    rw [isArgumentMap_cons_iff hchild, not_or] at hordinary
    exact ⟨child, hchild, ⟨hat, hordinary.2⟩, hordinary.1⟩
  · rintro ⟨child, hchild, ⟨hat, hordinary⟩, hpair⟩
    refine ⟨by simp [at?, hchild, hat], ?_⟩
    rw [isArgumentMap_cons_iff hchild, not_or]
    exact ⟨hpair, hordinary⟩

theorem isCompound_of_find? (h : Fields.find? segment v.children = some child) :
    v.isCompound = true := by
  cases v <;> first | rfl | simp [children, Fields.find?] at h

theorem mem_nodes_of_at? (h : v.at? place = some node) : node ∈ v.nodes := by
  induction place generalizing v with
  | nil => exact Option.some.inj h ▸ self_mem_nodes v
  | cons segment rest ih =>
      obtain ⟨child, hchild, hat⟩ := Option.bind_eq_some_iff.1 h
      exact mem_nodes_of_mem_children (Fields.mem_of_find? hchild) (ih hat)

/-! ## Below a form -/

theorem not_standsAt_string {s : String} (hx : x.isReserved = true) :
    ¬ (string s).StandsAt place x := by
  intro h
  cases place with
  | nil =>
      rw [standsAt_nil_iff.1 h] at hx
      simp [string, isReserved] at hx
  | cons segment rest =>
      obtain ⟨child, hchild, -⟩ := standsAt_cons_iff.1 h
      simp [string, children, Fields.find?] at hchild

/-- Below a list, a form stands below one of the items. -/
theorem exists_item_of_standsAt {items : List Value} (hx : x.isReserved = true)
    (h : (list items).StandsAt place x) :
    ∃ index rest item, place = index :: rest ∧
      Fields.find? index (indexed 0 items) = some item ∧ item.StandsAt rest x := by
  cases place with
  | nil =>
      rw [standsAt_nil_iff.1 h] at hx
      simp [isReserved] at hx
  | cons index rest =>
      obtain ⟨item, hitem, hstands, -⟩ := standsAt_cons_iff.1 h
      exact ⟨index, rest, item, rfl, hitem, hstands⟩

theorem not_standsAt_strings {strings : List String} (hx : x.isReserved = true) :
    ¬ (list (strings.map string)).StandsAt place x := by
  intro h
  obtain ⟨index, rest, item, -, hitem, hstands⟩ := exists_item_of_standsAt hx h
  have hmem : item ∈ strings.map string := by
    rw [← map_snd_indexed 0 (strings.map string)]
    exact List.mem_map_of_mem (f := (·.2)) (Fields.mem_of_find? hitem)
  obtain ⟨s, -, rfl⟩ := List.mem_map.1 hmem
  exact not_standsAt_string hx hstands

end Value

/-! ## Passes -/

variable {ν : Type} {action : FormAction ν} {path place rest : Path} {v w x node : Value}
  {notes later : ν} {segment : String}

/-- An action keeps the arguments of a substitution, in front of those that it adds. -/
def FormAction.KeepsArguments (action : FormAction ν) : Prop :=
  ∀ path pattern arguments notes, arguments ≠ [] → ∃ text more,
    (action path (.template pattern (some arguments))
      (.substitution pattern (some arguments)) notes).1 = .template text (some (arguments ++ more))

namespace Value

theorem standsAt_single_iff {key : String} {body : Value} :
    (Value.map [(key, body)]).StandsAt (segment :: rest) x ↔
      segment = key ∧ body.StandsAt rest x ∧
        ¬ (rest = ["1"] ∧ TakesArguments (.map [(key, body)])) := by
  rw [standsAt_cons_iff]
  constructor
  · rintro ⟨child, hchild, hstands, hpair⟩
    obtain ⟨rfl, rfl⟩ := Fields.find?_single_iff.1 hchild
    exact ⟨rfl, hstands, hpair⟩
  · rintro ⟨rfl, hstands, hpair⟩
    exact ⟨body, Fields.find?_single_iff.2 ⟨rfl, rfl⟩, hstands, hpair⟩

/-- Below the pair of a substitution, a form stands in the argument map or is the argument map. -/
theorem standsAt_pair_iff {pattern : String} {arguments : Fields Value} (hx : x.isReserved = true) :
    (list [string pattern, .map arguments]).StandsAt place x ↔
      ∃ inner, place = "1" :: inner ∧ (Value.map arguments).StandsAt inner x := by
  have hlist : ¬ TakesArguments (list [string pattern, .map arguments]) := by
    rintro ⟨first, second, h⟩
    simp at h
  constructor
  · intro h
    obtain ⟨index, inner, item, rfl, hitem, hstands⟩ := exists_item_of_standsAt hx h
    simp only [indexed, Fields.find?] at hitem
    split at hitem
    · -- The pattern is a text.
      obtain rfl := Option.some.inj hitem
      exact absurd hstands (not_standsAt_string hx)
    · split at hitem
      · rename_i hindex
        obtain rfl := Option.some.inj hitem
        exact ⟨inner, by rw [← hindex]; rfl, hstands⟩
      · simp at hitem
  · rintro ⟨inner, rfl, hstands⟩
    exact standsAt_cons_iff.2 ⟨_, rfl, hstands, fun h => hlist h.2⟩

/-- Below a substitution, a form stands in the argument map. -/
theorem standsAt_template_iff {pattern : String} {arguments : Option (Fields Value)}
    (hx : x.isReserved = true) :
    (template pattern arguments).StandsAt (segment :: rest) x ↔
      ∃ map, arguments = some map ∧ segment = Form.subKey ∧ ∃ key inner,
        rest = "1" :: key :: inner ∧ (Value.map map).StandsAt (key :: inner) x := by
  unfold template
  rw [standsAt_single_iff]
  cases arguments with
  | none =>
      constructor
      · rintro ⟨-, hstands, -⟩
        exact absurd hstands (not_standsAt_string hx)
      · rintro ⟨map, hmap, -⟩
        simp at hmap
  | some map =>
      simp only [standsAt_pair_iff hx, Option.some.injEq]
      constructor
      · rintro ⟨hsegment, ⟨inner, rfl, hstands⟩, hargs⟩
        refine ⟨map, rfl, hsegment, ?_⟩
        cases inner with
        | nil => exact absurd ⟨rfl, _, _, rfl⟩ hargs
        | cons key inner => exact ⟨key, inner, rfl, hstands⟩
      · rintro ⟨_, rfl, hsegment, key, inner, rfl, hstands⟩
        exact ⟨hsegment, ⟨key :: inner, rfl, hstands⟩, by simp⟩

/-- What stands in a map stands there with more entries behind. -/
theorem standsAt_append {first second : Fields Value}
    (h : (Value.map first).StandsAt (segment :: rest) x) :
    (Value.map (first ++ second)).StandsAt (segment :: rest) x := by
  obtain ⟨child, hchild, hstands, hpair⟩ := standsAt_cons_iff.1 h
  have hfind : Fields.find? segment (first ++ second) = some child := by
    rw [Fields.find?_append, show Fields.find? segment first = some child from hchild,
      Option.some_or]
  refine standsAt_cons_iff.2 ⟨child, hfind, hstands, ?_⟩
  rintro ⟨hrest, a, b, hmap⟩
  refine hpair ⟨hrest, a, b, ?_⟩
  -- A single entry in front of others is the only one.
  cases first with
  | nil => simp [children, Fields.find?] at hchild
  | cons field fields =>
      simp only [List.cons_append, map.injEq, List.cons.injEq, List.append_eq_nil_iff] at hmap
      rw [hmap.1, hmap.2.1]

/-- The rule leaves what stands below a node where it is. -/
theorem standsAt_of_ofForms (hkeeps : action.KeepsArguments) (hx : x.isReserved = true)
    (h : Rule.ofForms action path v notes = .ok (w, later))
    (hstands : v.StandsAt (segment :: rest) x) : w.StandsAt (segment :: rest) x := by
  rcases Rule.ofForms_eq_ok h with ⟨-, rfl, -⟩ | ⟨form, hform, haction⟩
  · exact hstands
  · cases form with
    | reference key =>
        obtain rfl := Form.recognize?_eq_reference_iff.1 hform
        exact absurd (standsAt_single_iff.1 hstands).2.1 (not_standsAt_string hx)
    | attributeOf key attr =>
        rcases Form.recognize?_eq_attributeOf hform with rfl | ⟨s, rfl, -⟩
        · exact absurd (standsAt_single_iff.1 hstands).2.1
            (@not_standsAt_strings _ _ [key, attr] hx)
        · exact absurd (standsAt_single_iff.1 hstands).2.1 (not_standsAt_string hx)
    | substitution pattern arguments =>
        obtain rfl := Form.recognize?_eq_substitution_iff.1 hform
        obtain ⟨map, rfl, rfl, key, inner, rfl, hinner⟩ := (standsAt_template_iff hx).1 hstands
        have hne : map ≠ [] := by
          rintro rfl
          obtain ⟨child, hchild, -⟩ := standsAt_cons_iff.1 hinner
          simp [children, Fields.find?] at hchild
        obtain ⟨text, more, hresult⟩ := hkeeps path pattern map notes hne
        rw [haction] at hresult
        rw [show w = _ from hresult]
        exact (standsAt_template_iff hx).2
          ⟨_, rfl, rfl, key, inner, rfl, standsAt_append hinner⟩

/-! ## Along a path -/

/-- A value with something in the second place that becomes a list of two was one before. -/
private theorem exists_pair_of_rewrites {body first second : Value}
    (hstands : body.StandsAt ["1"] node)
    (h : Rewrites (Rule.ofForms action) path body notes (.list [first, second]) later) :
    ∃ a b, body = .list [a, b] := by
  obtain ⟨child, hchild, -⟩ := standsAt_cons_iff.1 hstands
  have hordinary : body.isReserved = false := by
    rw [← Bool.not_eq_true]
    intro hreserved
    obtain ⟨key, hkey, inner, rfl⟩ := exists_of_isReserved hreserved
    obtain ⟨rfl, -⟩ := Fields.find?_single_iff.1 hchild
    exact absurd hkey (by decide)
  have hcompound := isCompound_of_find? hchild
  cases body with
  | list items =>
      obtain ⟨a, b, rfl⟩ := exists_two_of_rewrites h
      exact ⟨a, b, rfl⟩
  | map entries =>
      obtain ⟨parts, hparts, -⟩ := (rewrites_of_not_isReserved hcompound hordinary).1 h
      simp [withChildren] at hparts
  | record header metadata properties =>
      obtain ⟨_, _, _, hsame, -⟩ := rewrites_record_iff.1 h
      simp at hsame
  | null => simp [isCompound] at hcompound
  | scalar s => simp [isCompound] at hcompound

/-- A node that becomes a pair with something in the second place was a pair before. -/
private theorem takesArguments_of_withChildren {parts : Fields Value} {child : Value}
    (hthread : Thread (fun key => Rewrites (Rule.ofForms action) (path.push key)) v.children notes
      parts later)
    (hchild : Fields.find? segment v.children = some child) (hstands : child.StandsAt ["1"] node)
    (hpair : (v.withChildren parts).TakesArguments) : v.TakesArguments := by
  obtain ⟨first, second, hpair⟩ := hpair
  have hreserved : v.isReserved = true := by
    rw [← isReserved_withChildren hthread.keys_eq, hpair]
    rfl
  obtain ⟨key, -, body, rfl⟩ := exists_of_isReserved hreserved
  simp only [withChildren, map.injEq] at hpair
  subst hpair
  obtain ⟨y, hsame, hbody⟩ := Thread.thread_single_iff.1 hthread
  simp only [List.cons.injEq, Prod.mk.injEq, and_true] at hsame
  obtain ⟨rfl, rfl⟩ := hsame
  obtain ⟨-, rfl⟩ := Fields.find?_single_iff.1 hchild
  obtain ⟨a, b, rfl⟩ := exists_pair_of_rewrites hstands hbody
  exact ⟨a, b, rfl⟩

/-- A pass comes to a node with the notes of what lies before it, and what it makes of the node
stands in its place, if that is a form again. -/
theorem exists_rewrites_of_standsAt {le : ν → ν → Prop} [IsPreorder ν le]
    (hgrows : ∀ path node form notes, le notes (action path node form notes).2)
    (hkeeps : action.KeepsArguments)
    (hreserved : ∀ {path notes x later}, Rewrites (Rule.ofForms action) path node notes x later →
      x.isReserved = true)
    (h : Rewrites (Rule.ofForms action) path v notes w later) (hstands : v.StandsAt place node) :
    ∃ before x after, Rewrites (Rule.ofForms action) (path ++ place) node before x after ∧
      w.StandsAt place x ∧ le notes before ∧ le after later := by
  have hrule : ∀ path node notes w later,
      Rule.ofForms action path node notes = .ok (w, later) → le notes later := by
    intro path node notes w later hrule
    rcases Rule.ofForms_eq_ok hrule with ⟨-, -, rfl⟩ | ⟨form, -, haction⟩
    · exact refl_of le later
    · have hle := hgrows path node form notes
      rwa [haction] at hle
  induction place generalizing v w path notes later with
  | nil =>
      obtain rfl := standsAt_nil_iff.1 hstands
      refine ⟨notes, w, later, ?_, standsAt_nil_iff.2 rfl, refl_of le notes, refl_of le later⟩
      rwa [List.append_nil]
  | cons segment rest ih =>
      obtain ⟨child, hchild, hinner, hpair⟩ := standsAt_cons_iff.1 hstands
      obtain ⟨parts, between, hthread, hnode⟩ := (rewrites_iff (isCompound_of_find? hchild)).1 h
      obtain ⟨y, n, m, hy, hstep, hn, hm⟩ :=
        hthread.exists_find? (fun _ hstep => rewrites_grows hrule hstep) hchild
      obtain ⟨before, x, after, hvisit, hx, hfirst, hlast⟩ := ih hstep hinner
      rw [Path.push_append] at hvisit
      refine ⟨before, x, after, hvisit, standsAt_of_ofForms hkeeps (hreserved hvisit) hnode ?_,
        trans_of le hn hfirst, trans_of le hlast (trans_of le hm (hrule _ _ _ _ _ hnode))⟩
      refine standsAt_cons_iff.2 ⟨y, ?_, hx, ?_⟩
      · rwa [children_withChildren hthread.keys_eq]
      · rintro ⟨rfl, hafter⟩
        exact hpair ⟨rfl, takesArguments_of_withChildren hthread hchild hinner hafter⟩

/-- What a pass makes of a node stands in its place, if it is a form again. -/
theorem exists_standsAt_of_rewrites {P : Value → Prop} (hkeeps : action.KeepsArguments)
    (hreserved : ∀ x, P x → x.isReserved = true)
    (hP : ∀ {path notes x later}, Rewrites (Rule.ofForms action) path node notes x later → P x)
    (h : Rewrites (Rule.ofForms action) path v notes w later) (hstands : v.StandsAt place node) :
    ∃ x, w.StandsAt place x ∧ P x := by
  let le : ν → ν → Prop := fun _ _ => True
  have hpreorder : IsPreorder ν le :=
    { refl := fun _ => trivial, trans := fun _ _ _ _ _ => trivial }
  have hgrows : ∀ path node form notes, le notes (action path node form notes).2 :=
    fun _ _ _ _ => trivial
  obtain ⟨before, x, after, hvisit, hx, -, -⟩ := exists_rewrites_of_standsAt hgrows hkeeps
    (fun hvisit => hreserved _ (hP hvisit)) h hstands
  exact ⟨x, hx, hP hvisit⟩

/-- A pass comes to a reference or an attribute with the notes of what lies before it, and what it
makes of it stands in its place, if that is a form again. -/
theorem exists_visit_of_rewrites {le : ν → ν → Prop} [IsPreorder ν le] {form : Form} {key : String}
    (hgrows : ∀ path node form notes, le notes (action path node form notes).2)
    (hkeeps : action.KeepsArguments)
    (hform : Form.recognize? node = .ok (some form)) (htarget : form.target? = some key)
    (hreserved : ∀ path notes, (action path node form notes).1.isReserved = true)
    (h : Rewrites (Rule.ofForms action) path v notes w later) (hstands : v.StandsAt place node) :
    ∃ before, w.StandsAt place (action (path ++ place) node form before).1 ∧
      le notes before ∧ le (action (path ++ place) node form before).2 later := by
  have hvisits : ∀ {path notes x later}, Rewrites (Rule.ofForms action) path node notes x later →
      action path node form notes = (x, later) := (rewrites_target_iff hform htarget).1
  have hagain : ∀ {path notes x later}, Rewrites (Rule.ofForms action) path node notes x later →
      x.isReserved = true := by
    intro path notes x later hvisit
    have hx := hreserved path notes
    rwa [hvisits hvisit] at hx
  obtain ⟨before, x, after, hvisit, hx, hfirst, hlast⟩ :=
    exists_rewrites_of_standsAt hgrows hkeeps hagain h hstands
  refine ⟨before, ?_, hfirst, ?_⟩
  · rwa [hvisits hvisit]
  · rwa [hvisits hvisit]

/-- What a pass makes of a reference or an attribute stands in its place, if it is a form again. -/
theorem standsAt_of_rewrites {P : Value → Prop} {form : Form} {key : String}
    (hkeeps : action.KeepsArguments) (hreserved : ∀ x, P x → x.isReserved = true)
    (hform : Form.recognize? node = .ok (some form)) (htarget : form.target? = some key)
    (hP : ∀ path notes, P (action path node form notes).1)
    (h : Rewrites (Rule.ofForms action) path v notes w later) (hstands : v.StandsAt place node) :
    ∃ x, w.StandsAt place x ∧ P x := by
  refine exists_standsAt_of_rewrites hkeeps hreserved (fun {path notes x later} hvisit => ?_) h
    hstands
  have hx := hP path notes
  rwa [(rewrites_target_iff hform htarget).1 hvisit] at hx

end Value

end StackLinker
