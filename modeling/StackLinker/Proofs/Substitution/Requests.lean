import StackLinker.Proofs.Substitution.Granting

/-!
# What a value asks for, and where

A reference, an attribute and each placeholder that its substitution does not bind ask for
something.  `Value.Requests` says so of a node together with its place below a value, since this is
what a diagnostic points at.

A single pass points at requests only (`isAbout_of_rewrites`): whatever it notes as missing or
refuses is asked for in the value it goes over, at the place that is noted.
-/

namespace StackLinker

/-! ## Requests -/

/-- What a form asks for. -/
def Form.requests : Form → List Placeholder
  | .reference key => [⟨key, none⟩]
  | .attributeOf key attr => [⟨key, some attr⟩]
  | .substitution pattern arguments =>
    (Pattern.placeholders pattern).filter fun placeholder =>
      !Fields.contains placeholder.name (arguments.getD [])

namespace Form

variable {form : Form} {placeholder : Placeholder}

theorem requests_of_placeholder? (h : form.placeholder? = some placeholder) :
    form.requests = [placeholder] := by
  cases form <;> simp only [placeholder?, Option.some.injEq, reduceCtorEq] at h <;> rw [requests, h]

theorem mem_requests_substitution {pattern : String} {arguments : Option (Fields Value)} :
    placeholder ∈ (substitution pattern arguments).requests ↔
      placeholder ∈ Pattern.placeholders pattern ∧
        placeholder.name ∉ Fields.keys (arguments.getD []) := by
  simp [requests, ← Fields.contains_iff_mem_keys]

/-- The names that a form uses are those of what it asks for. -/
theorem mem_uses_iff {name : String} :
    name ∈ form.uses ↔ ∃ placeholder ∈ form.requests, placeholder.name = name := by
  cases form with
  | substitution pattern arguments =>
      simp only [mem_uses_substitution, mem_requests_substitution, Pattern.mem_names,
        Pattern.mem_placeholders_iff]
      constructor
      · rintro ⟨⟨hole, placeholder, hhole, hread, rfl⟩, hown⟩
        exact ⟨placeholder, ⟨⟨hole, hhole, hread⟩, hown⟩, rfl⟩
      · rintro ⟨placeholder, ⟨⟨hole, hhole, hread⟩, hown⟩, rfl⟩
        exact ⟨⟨hole, placeholder, hhole, hread, rfl⟩, hown⟩
  | _ => simp [uses, requests, eq_comm]

end Form

namespace Value

/-- A node stands at a place below a value: each segment of the place is the key of a part. -/
def Holds : Value → Path → Value → Prop
  | v, [], node => node = v
  | v, segment :: rest, node => ∃ child, (segment, child) ∈ v.children ∧ child.Holds rest node
termination_by structural _ place => place

/-- A node at a place below a value asks for something. -/
def Requests (v : Value) (place : Path) (placeholder : Placeholder) : Prop :=
  ∃ node form, v.Holds place node ∧ Form.recognize? node = .ok (some form) ∧
    placeholder ∈ form.requests

/-- Everything that a value asks for. -/
def requested (v : Value) : List Placeholder :=
  v.nodes.flatMap fun node => ((Form.peek node).map Form.requests).getD []

variable {v node : Value} {place rest : Path} {segment : String} {placeholder next : Placeholder}

/-- The nodes of a value are what stands at its places. -/
theorem mem_nodes_iff : node ∈ v.nodes ↔ ∃ place, v.Holds place node := by
  constructor
  · intro h
    induction v using induction_on_children with
    | h v ih =>
        rcases mem_nodes.1 h with rfl | ⟨child, hchild, hnode⟩
        · exact ⟨[], rfl⟩
        · obtain ⟨place, hplace⟩ := ih child hchild hnode
          exact ⟨child.1 :: place, child.2, hchild, hplace⟩
  · rintro ⟨place, h⟩
    induction place generalizing v with
    | nil =>
        obtain rfl := h
        exact self_mem_nodes _
    | cons segment rest ih =>
        obtain ⟨child, hchild, hrest⟩ := h
        exact mem_nodes_of_mem_children hchild (ih hrest)

theorem mem_requested_iff : placeholder ∈ v.requested ↔ ∃ place, v.Requests place placeholder := by
  have hform : ∀ node : Value, placeholder ∈ ((Form.peek node).map Form.requests).getD [] ↔
      ∃ form, Form.recognize? node = .ok (some form) ∧ placeholder ∈ form.requests := by
    intro node
    simp only [← Form.peek_eq_some_iff]
    cases Form.peek node <;> simp
  simp only [requested, List.mem_flatMap, hform, mem_nodes_iff]
  constructor
  · rintro ⟨node, ⟨place, hnode⟩, form, hform, hmem⟩
    exact ⟨place, node, form, hnode, hform, hmem⟩
  · rintro ⟨place, node, form, hnode, hform, hmem⟩
    exact ⟨node, ⟨place, hnode⟩, form, hform, hmem⟩

/-- The names that a value uses are those of what it asks for, exempt ones apart. -/
theorem mem_uses_iff_requested {config : Config} {name : String} : name ∈ v.uses config ↔
    ∃ placeholder ∈ v.requested, placeholder.name = name ∧ config.isExempt name = false := by
  simp only [uses, requested, List.mem_flatMap]
  constructor
  · rintro ⟨node, hnode, hname⟩
    obtain ⟨form, hform, huses, hexempt⟩ := mem_ownUses.1 hname
    obtain ⟨placeholder, hrequest, rfl⟩ := Form.mem_uses_iff.1 huses
    exact ⟨placeholder, ⟨node, hnode, by simpa [Form.peek_eq_some_iff.2 hform] using hrequest⟩,
      rfl, hexempt⟩
  · rintro ⟨placeholder, ⟨node, hnode, hrequest⟩, rfl, hexempt⟩
    cases hpeek : Form.peek node with
    | none => simp [hpeek] at hrequest
    | some form =>
        refine ⟨node, hnode, mem_ownUses.2 ⟨form, Form.peek_eq_some_iff.1 hpeek, ?_, hexempt⟩⟩
        exact Form.mem_uses_iff.2 ⟨placeholder, by simpa [hpeek] using hrequest, rfl⟩

theorem requests_nil_iff : v.Requests [] placeholder ↔
    ∃ form, Form.recognize? v = .ok (some form) ∧ placeholder ∈ form.requests := by
  constructor
  · rintro ⟨_, form, rfl, hform, hmem⟩
    exact ⟨form, hform, hmem⟩
  · rintro ⟨form, hform, hmem⟩
    exact ⟨v, form, rfl, hform, hmem⟩

theorem requests_cons_iff : v.Requests (segment :: rest) placeholder ↔
    ∃ child, (segment, child) ∈ v.children ∧ child.Requests rest placeholder := by
  constructor
  · rintro ⟨node, form, ⟨child, hchild, hnode⟩, hform, hmem⟩
    exact ⟨child, hchild, node, form, hnode, hform, hmem⟩
  · rintro ⟨child, hchild, node, form, hnode, hform, hmem⟩
    exact ⟨node, form, ⟨child, hchild, hnode⟩, hform, hmem⟩

/-- In an ordinary node all requests are those of the parts. -/
theorem requests_iff_of_not_isReserved (h : v.isReserved = false) :
    v.Requests place placeholder ↔ ∃ segment rest child, place = segment :: rest ∧
      (segment, child) ∈ v.children ∧ child.Requests rest placeholder := by
  cases place with
  | nil => simp [requests_nil_iff, recognize?_of_not_isReserved h]
  | cons segment rest =>
      rw [requests_cons_iff]
      constructor
      · rintro ⟨child, hchild, hrequest⟩
        exact ⟨segment, rest, child, rfl, hchild, hrequest⟩
      · rintro ⟨_, _, child, ⟨⟩, hchild, hrequest⟩
        exact ⟨child, hchild, hrequest⟩

theorem not_requests_scalar (s : Scalar) : ¬ (scalar s).Requests place placeholder := by
  rw [requests_iff_of_not_isReserved rfl]
  rintro ⟨segment, rest, child, -, hchild, -⟩
  simp [children] at hchild

theorem not_requests_scalars {items : List Value} (h : ∀ item ∈ items, ∃ s, item = scalar s) :
    ¬ (list items).Requests place placeholder := by
  rw [requests_iff_of_not_isReserved rfl]
  rintro ⟨segment, rest, child, -, hchild, hrequest⟩
  obtain ⟨item, hitem, hrequest⟩ := (exists_children_list
    (P := fun item => item.Requests rest placeholder)).1 ⟨_, hchild, hrequest⟩
  obtain ⟨s, rfl⟩ := h item hitem
  exact not_requests_scalar s hrequest

/-- A reference that is settled by its shape asks for nothing. -/
theorem not_requests_of_classify {entity : String} (h : v.classify entity = .ok .free) :
    ¬ v.Requests place placeholder := by
  rcases classify_eq_free_iff.1 h with ⟨s, rfl⟩ | ⟨items, rfl, hscalars⟩
  · exact not_requests_scalar s
  · exact not_requests_scalars hscalars

/-- A reference or an attribute asks for one thing, and nothing below it asks for anything. -/
theorem requests_target_iff {form : Form} (hform : Form.recognize? v = .ok (some form))
    (hnext : form.placeholder? = some next) :
    v.Requests place placeholder ↔ place = [] ∧ placeholder = next := by
  cases place with
  | nil => simp [requests_nil_iff, hform, Form.requests_of_placeholder? hnext]
  | cons segment rest =>
      simp only [reduceCtorEq, false_and, iff_false]
      rw [requests_cons_iff]
      rintro ⟨child, hchild, hrequest⟩
      cases form with
      | reference key =>
          obtain rfl := Form.recognize?_eq_reference_iff.1 hform
          obtain ⟨-, rfl⟩ : segment = Form.refKey ∧ child = .string key := by
            simpa [ref, children] using hchild
          exact not_requests_scalar _ hrequest
      | attributeOf key attr =>
          rcases Form.recognize?_eq_attributeOf hform with rfl | ⟨s, rfl, -⟩
          · obtain ⟨-, rfl⟩ : segment = Form.getAttKey ∧
                child = .list [.string key, .string attr] := by
              simpa [getAtt, children] using hchild
            exact not_requests_scalars (by simp [string]) hrequest
          · obtain ⟨-, rfl⟩ : segment = Form.getAttKey ∧ child = .string s := by
              simpa [children] using hchild
            exact not_requests_scalar _ hrequest
      | substitution => simp [Form.placeholder?] at hnext

/-- A template asks for what its pattern asks for and its arguments do not bind, and for what its
arguments ask for. -/
theorem requests_template_iff {pattern : String} {arguments : Option (Fields Value)}
    (hordinary : Fields.isReserved (arguments.getD []) = false) :
    (template pattern arguments).Requests place placeholder ↔
      (place = [] ∧ placeholder ∈ Pattern.placeholders pattern ∧
        placeholder.name ∉ Fields.keys (arguments.getD [])) ∨
      ∃ argument ∈ arguments.getD [], ∃ rest, place = Form.subKey :: "1" :: argument.1 :: rest ∧
        argument.2.Requests rest placeholder := by
  cases place with
  | nil =>
      simp [requests_nil_iff, Form.recognize?_template, Form.mem_requests_substitution]
  | cons segment rest =>
      simp only [reduceCtorEq, false_and, false_or]
      rw [requests_cons_iff]
      cases arguments with
      | none =>
          simp [template, children, not_requests_scalar, string]
      | some arguments =>
          have hmap : (Value.map arguments).isReserved = false := hordinary
          constructor
          · rintro ⟨child, hchild, hrequest⟩
            obtain ⟨rfl, rfl⟩ : segment = Form.subKey ∧
                child = .list [.string pattern, .map arguments] := by
              simpa [template, children] using hchild
            obtain ⟨index, inner, item, rfl, hitem, hrequest⟩ :=
              (requests_iff_of_not_isReserved rfl).1 hrequest
            simp only [children, indexed, List.mem_cons, Prod.mk.injEq, List.not_mem_nil,
              or_false] at hitem
            rcases hitem with ⟨-, rfl⟩ | ⟨rfl, rfl⟩
            · exact absurd hrequest (not_requests_scalar _)
            · obtain ⟨key, rest, value, rfl, hmem, hrequest⟩ :=
                (requests_iff_of_not_isReserved hmap).1 hrequest
              exact ⟨(key, value), hmem, rest, rfl, hrequest⟩
          · rintro ⟨⟨key, value⟩, hmem, inner, hplace, hrequest⟩
            obtain ⟨rfl, rfl⟩ := List.cons.inj hplace
            have hindex : ("1", Value.map arguments) ∈
                (Value.list [.string pattern, .map arguments]).children :=
              List.mem_cons_of_mem _ List.mem_cons_self
            exact ⟨_, List.mem_cons_self, requests_cons_iff.2 ⟨_, hindex,
              requests_cons_iff.2 ⟨value, hmem, hrequest⟩⟩⟩

end Value

/-! ## Notes -/

namespace Surroundings

/-- A diagnostic that refuses an attribute which a free entity does not offer. -/
structure Refuses (around : Surroundings) (source : String) (path : Path)
    (placeholder : Placeholder) (d : Diagnostic) : Prop where
  kind : d.kind = .invalidAttribute
  entity : d.entity = source
  reference : d.reference = some placeholder.name
  location : d.location = some path.text
  denied : ∃ target attr, around.meaning placeholder.name = .free target ∧
    placeholder.attr = some attr ∧ target.offers around.catalog attr = false

end Surroundings

/-- Whether everything that a pass noted as missing or refused was asked for at its place. -/
structure Outcome.IsAbout (around : Surroundings) (source : String)
    (asked : Path → Placeholder → Prop) (outcome : Outcome) : Prop where
  missing : ∀ u ∈ outcome.missing, ∃ placeholder, asked u.path placeholder ∧
    u.key = placeholder.name ∧ around.meaning placeholder.name = .missing
  invalid : ∀ d ∈ outcome.invalid, ∃ path placeholder, asked path placeholder ∧
    around.Refuses source path placeholder d

namespace Surroundings

open Value

variable {around : Surroundings} {source : String} {path : Path} {placeholder : Placeholder}
  {asked : Path → Placeholder → Prop} {outcome later : Outcome} {v w : Value}

theorem refuses_of_checkAttribute {target : Entity} {attr : String} {e : Diagnostic}
    (hfree : around.meaning placeholder.name = .free target)
    (hattr : placeholder.attr = some attr)
    (h : around.checkAttribute source target attr path = .error e) :
    around.Refuses source path placeholder e := by
  have hname := Entity.fullName_of_find? (meaning_eq_free_iff.1 hfree).2
  have hdenied : target.offers around.catalog attr = false := by
    rw [← Bool.not_eq_true, ← @checkAttribute_eq_ok_iff around source path, h]
    simp
  obtain ⟨message, rfl⟩ := checkAttribute_eq_error h
  exact ⟨rfl, rfl, congrArg some hname, rfl, target, attr, hfree, hattr, hdenied⟩

/-- What is noted for a request is about that request. -/
theorem isAbout_note (h : outcome.IsAbout around source asked) (hasked : asked path placeholder) :
    (around.note source path placeholder outcome).IsAbout around source asked := by
  unfold note
  cases hmeaning : around.meaning placeholder.name with
  | exempt => exact h
  | bound => exact ⟨h.missing, h.invalid⟩
  | missing =>
      refine ⟨fun u hu => ?_, h.invalid⟩
      rcases List.mem_append.1 hu with hu | hu
      · exact h.missing u hu
      · rw [List.mem_singleton.1 hu]
        exact ⟨placeholder, hasked, rfl, hmeaning⟩
  | free target =>
      cases hattr : placeholder.attr with
      | none => exact h
      | some attr =>
          simp only
          cases hcheck : around.checkAttribute source target attr path with
          | ok => exact h
          | error e =>
              refine ⟨h.missing, fun d hd => ?_⟩
              rcases List.mem_append.1 hd with hd | hd
              · exact h.invalid d hd
              · rw [List.mem_singleton.1 hd]
                exact ⟨path, placeholder, hasked, refuses_of_checkAttribute hmeaning hattr hcheck⟩

/-- What is noted while a pattern is filled is about placeholders that no argument binds. -/
theorem isAbout_fill {pattern : String} {start : Filling}
    (hstart : start.outcome.IsAbout around source asked)
    (hasked : ∀ placeholder ∈ Pattern.placeholders pattern,
      placeholder.name ∉ start.arguments.keys → asked path placeholder) :
    (Pattern.fill (around.answer source path) pattern start).2.outcome.IsAbout around source
      asked := by
  have hstep : ∀ inner placeholder filling, .hole inner ∈ Pattern.pieces pattern →
      Placeholder.ofHole? inner = some placeholder →
      start.arguments.keys ⊆ filling.arguments.keys ∧
        filling.outcome.IsAbout around source asked →
      start.arguments.keys ⊆ (around.answer source path placeholder filling).2.arguments.keys ∧
        (around.answer source path placeholder filling).2.outcome.IsAbout around source asked := by
    rintro inner placeholder filling hmem hread ⟨hkeys, habout⟩
    refine ⟨List.Subset.trans hkeys
      (growsTo_answer around source path placeholder filling).keys_subset, ?_⟩
    by_cases hown : placeholder.name ∈ filling.arguments.keys
    · rwa [answer_of_own hown]
    · cases hgrant : around.grant? placeholder with
      | some granted =>
          rw [answer_of_grant hown hgrant]
          simpa only [outcome_splice] using habout
      | none =>
          rw [answer_of_denied hown hgrant]
          exact isAbout_note habout (hasked placeholder (Pattern.mem_placeholders hmem hread)
            fun hdeclared => hown (hkeys hdeclared))
  exact (Pattern.fillPieces_invariant hstep ⟨List.Subset.refl _, hstart⟩).2

/-- What a pass notes is about requests of the value it goes over. -/
theorem isAbout_of_rewrites {config : Config} {splicing : Splicing} (hv : v.IsTame config splicing)
    (h : v.Rewrites (around.rule source) path outcome w later)
    (hasked : ∀ place placeholder, v.Requests place placeholder → asked (path ++ place) placeholder)
    (hstart : outcome.IsAbout around source asked) : later.IsAbout around source asked := by
  induction hv generalizing path outcome w later with
  | scalar s =>
      obtain ⟨-, rfl⟩ := rewrites_scalar_iff.1 h
      exact hstart
  | ordinary hv hordinary _ ih =>
      obtain ⟨parts, -, hthread⟩ := (rewrites_of_not_isReserved hv hordinary).1 h
      refine hthread.preserves (P := Outcome.IsAbout around source asked) ?_ hstart
      intro key x before y after hmem hstep
      refine ih (key, x) hmem hstep fun place placeholder hrequest => ?_
      have hhere := hasked (key :: place) placeholder (requests_cons_iff.2 ⟨x, hmem, hrequest⟩)
      simpa [Path.push] using hhere
  | target hform hplaceholder =>
      have hsettle := (rewrites_target_iff hform (Form.placeholder?_eq_some hplaceholder)).1 h
      rw [settle_target_eq hplaceholder, Prod.mk.injEq] at hsettle
      have hhere := hasked [] _ ((requests_target_iff hform hplaceholder).2 ⟨rfl, rfl⟩)
      exact hsettle.2 ▸ isAbout_note hstart (by simpa using hhere)
  | @template pattern arguments _ _ hordinary _ ih =>
      obtain ⟨done, between, hthread, haction⟩ := (rewrites_template_iff hordinary).1 h
      have hbetween : between.IsAbout around source asked := by
        refine hthread.preserves (P := Outcome.IsAbout around source asked) ?_ hstart
        intro key x before y after hmem hstep
        refine ih (key, x) hmem hstep fun place placeholder hrequest => ?_
        have hhere := hasked (Form.subKey :: "1" :: key :: place) placeholder
          ((requests_template_iff hordinary).2 (Or.inr ⟨(key, x), hmem, place, rfl, hrequest⟩))
        simpa [argumentsPath, Path.push] using hhere
      obtain ⟨text, filling, hfill, hnotes, -⟩ := substitution_cases around source path
        (template pattern (arguments.map fun _ => done)) pattern (arguments.map fun _ => done)
        between
      simp only [settle] at haction
      have hkeys : Fields.keys ((arguments.map fun _ => done).getD []) =
          Fields.keys (arguments.getD []) := by
        rw [getD_map_of_keys_eq hthread.keys_eq]
        exact hthread.keys_eq
      have hfilled := @isAbout_fill around source path asked pattern
        (.start (arguments.map fun _ => done) between) hbetween fun placeholder hmem hown => by
          have hhere := hasked [] placeholder ((requests_template_iff hordinary).2
            (Or.inl ⟨rfl, hmem, hkeys ▸ hown⟩))
          simpa using hhere
      rwa [hfill, ← hnotes, haction] at hfilled

theorem isAbout_of_apply {config : Config} {splicing : Splicing} (hv : v.IsTame config splicing)
    (h : around.apply source v = .ok (w, outcome))
    (hasked : ∀ place placeholder, v.Requests place placeholder →
      asked (source :: place) placeholder) : outcome.IsAbout around source asked :=
  isAbout_of_rewrites hv (apply_eq_ok_iff.1 h) hasked ⟨by simp, by simp⟩

end Surroundings

end StackLinker
