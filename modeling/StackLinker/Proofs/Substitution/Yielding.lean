import Mathlib.Data.List.Forall2
import StackLinker.Proofs.Substitution.Answers

/-!
# What a pass makes of a value

The value that a pass ends with depends neither on whose behalf it runs nor on the place of the
value nor on the notes taken before: these only enter into further notes (`yields_of_rewrites`).
So `Yields around v w` says that a pass makes `w` of `v`, and no more; it is a relation between
values that can be composed.

* `yields_iff` takes a compound node apart, and `eq_of_yields` says that there is one result.
* What asks for a free entity becomes what the entity `grants`, and stays if it grants nothing
  (`turns_target_iff`).
* Surroundings in which more entities are free grant what fewer did (`Precedes.grant?`).
-/

namespace StackLinker

/-- Whether an attribute of an entity may be read. -/
def Entity.offers (catalog : Catalog) (target : Entity) (attr : String) : Bool :=
  target.kind.isManaged &&
    (target.hasPragma .noTypeValidation || catalog.supports target.typeName attr)

namespace Surroundings

variable {around : Surroundings} {source : String} {path : Path} {notes later : Outcome}
  {v w node : Value} {placeholder : Placeholder} {form : Form} {target : Entity}

theorem checkAttribute_eq_ok_iff {attr : String} :
    around.checkAttribute source target attr path = .ok () ↔
      target.offers around.catalog attr = true := by
  unfold checkAttribute Entity.offers
  cases target.kind.isManaged with
  | false => simp
  | true =>
      cases target.hasPragma .noTypeValidation <;>
        cases around.catalog.supports target.typeName attr <;> simp

/-! ## Notes do not enter into values -/

/-- A filling with other notes. -/
def Filling.noting (filling : Filling) (outcome : Outcome) : Filling :=
  { filling with outcome := outcome }

theorem splice_noting (around : Surroundings) (value : Value) (filling : Filling)
    (outcome : Outcome) : around.splice value (filling.noting outcome) =
      ((around.splice value filling).1, (around.splice value filling).2.noting outcome) := by
  unfold splice
  split
  · rfl
  · split <;> rfl

/-- The answer to a placeholder is the same with other notes, at another place. -/
theorem answer_noting (around : Surroundings) (source other : String) (path place : Path)
    (placeholder : Placeholder) (filling : Filling) (outcome : Outcome) :
    (around.answer other place placeholder (filling.noting outcome)).1 =
        (around.answer source path placeholder filling).1 ∧
      ∃ more, (around.answer other place placeholder (filling.noting outcome)).2 =
        (around.answer source path placeholder filling).2.noting more := by
  have hown : (filling.noting outcome).arguments = filling.arguments := rfl
  unfold answer
  rw [hown]
  split
  · exact ⟨rfl, outcome, rfl⟩
  · cases around.meaning placeholder.name with
    | free target =>
        cases placeholder.attr with
        | none =>
            simp only [splice_noting]
            exact ⟨trivial, outcome, rfl⟩
        | some attr =>
            by_cases hoffers : target.offers around.catalog attr = true
            · simp only [checkAttribute_eq_ok_iff.2 hoffers]
              exact ⟨trivial, outcome, rfl⟩
            · have hrefuses : ∀ source path, ∃ e,
                  around.checkAttribute source target attr path = .error e := by
                intro source path
                cases hcheck : around.checkAttribute source target attr path with
                | error e => exact ⟨e, rfl⟩
                | ok => exact absurd (checkAttribute_eq_ok_iff.1 hcheck) hoffers
              obtain ⟨e, he⟩ := hrefuses source path
              obtain ⟨f, hf⟩ := hrefuses other place
              simp only [he, hf]
              exact ⟨trivial, _, rfl⟩
    | exempt => exact ⟨rfl, _, rfl⟩
    | bound => exact ⟨rfl, _, rfl⟩
    | missing => exact ⟨rfl, _, rfl⟩

theorem fill_noting (around : Surroundings) (source other : String) (path place : Path)
    (pattern : String) (filling : Filling) (outcome : Outcome) :
    (Pattern.fill (around.answer other place) pattern (filling.noting outcome)).1 =
        (Pattern.fill (around.answer source path) pattern filling).1 ∧
      ∃ more, (Pattern.fill (around.answer other place) pattern (filling.noting outcome)).2 =
        (Pattern.fill (around.answer source path) pattern filling).2.noting more := by
  obtain ⟨htext, hfilling⟩ := @Pattern.fillPieces_relates _ (around.answer source path) _
    (around.answer other place) (fun filling twin => ∃ more, twin = Filling.noting filling more)
    (Pattern.pieces pattern)
    (fun _ placeholder filling twin _ _ ⟨more, htwin⟩ =>
      htwin ▸ answer_noting around source other path place placeholder filling more)
    filling (filling.noting outcome) ⟨outcome, rfl⟩
  exact ⟨congrArg String.ofList htext, hfilling⟩

/-- What a substitution becomes when its pattern has been filled. -/
def Filling.result (filling : Filling) (node : Value) (text : String) : Value :=
  if filling.arguments.isEmpty && !Pattern.hasHoles text then .string text
  else if filling.changed then .sub text filling.arguments
  else node

theorem substitution_fst (around : Surroundings) (source : String) (path : Path) (node : Value)
    (pattern : String) (arguments : Option (Fields Value)) (outcome : Outcome) :
    (around.substitution source path node pattern arguments outcome).1 =
      (Pattern.fill (around.answer source path) pattern (.start arguments outcome)).2.result node
        (Pattern.fill (around.answer source path) pattern (.start arguments outcome)).1 := by
  unfold substitution Filling.result Filling.start
  simp only
  split
  · rfl
  · split <;> rfl

/-- What a form becomes does not depend on the notes, nor on its place. -/
theorem settle_fst_congr (around : Surroundings) (source other : String) (path place : Path)
    (node : Value) (form : Form) (outcome another : Outcome) :
    (around.settle other place node form another).1 =
      (around.settle source path node form outcome).1 := by
  cases form with
  | reference key =>
      simp only [settle, reference]
      cases around.meaning key <;> rfl
  | attributeOf key attr =>
      simp only [settle, attributeOf]
      cases around.meaning key with
      | free target =>
          simp only
          by_cases hoffers : target.offers around.catalog attr = true
          · simp only [checkAttribute_eq_ok_iff.2 hoffers]
          · split
            · rename_i hcheck
              exact absurd (checkAttribute_eq_ok_iff.1 hcheck) hoffers
            · split
              · rename_i hcheck
                exact absurd (checkAttribute_eq_ok_iff.1 hcheck) hoffers
              · rfl
      | _ => rfl
  | substitution pattern arguments =>
      obtain ⟨htext, more, hfilling⟩ :=
        fill_noting around source other path place pattern (.start arguments outcome) another
      simp only [settle, substitution_fst]
      rw [show Filling.start arguments another = (Filling.start arguments outcome).noting another
        from rfl, htext, hfilling]
      rfl

/-! ## Passes without their notes -/

/-- A pass makes the second value of the first. -/
def Yields (around : Surroundings) (v w : Value) : Prop :=
  ∀ source path notes, ∃ later, v.Rewrites (around.rule source) path notes w later

/-- The rule of a pass makes the second value of a node whose parts are done. -/
def Turns (around : Surroundings) (node w : Value) : Prop :=
  ∀ source path notes, ∃ later, around.rule source path node notes = .ok (w, later)

/-- Passes over the parts of a node, each under its key. -/
def YieldsParts (around : Surroundings) : Fields Value → Fields Value → Prop :=
  List.Forall₂ fun part done => done.1 = part.1 ∧ around.Yields part.2 done.2

theorem YieldsParts.keys_eq {parts done : Fields Value} (h : around.YieldsParts parts done) :
    done.map (·.1) = parts.map (·.1) := by
  induction h with
  | nil => rfl
  | cons head _ ih => simp [head.1, ih]

theorem turns_of_rule (h : around.rule source path node notes = .ok (w, later)) :
    around.Turns node w := by
  intro other place more
  rcases Rule.ofForms_eq_ok h with ⟨hordinary, rfl, -⟩ | ⟨form, hform, hsettle⟩
  · exact ⟨more, Rule.ofForms_ordinary hordinary _ _ _⟩
  · have hvalue := settle_fst_congr around source other path place node form notes more
    rw [hsettle] at hvalue
    refine ⟨(around.settle other place node form more).2, ?_⟩
    rw [rule, Rule.ofForms_form hform]
    exact congrArg Except.ok (Prod.ext hvalue rfl)

private theorem yieldsParts_iff {parts done : Fields Value} (place : String → Path)
    (h : ∀ part ∈ parts, ∀ {path notes y later},
      part.2.Rewrites (around.rule source) path notes y later → around.Yields part.2 y)
    (notes : Outcome) : around.YieldsParts parts done ↔
      ∃ later, Thread (fun key => Value.Rewrites (around.rule source) (place key)) parts notes
        done later := by
  induction parts generalizing done notes with
  | nil =>
      simp only [Thread.thread_nil_iff, exists_and_left, exists_eq, and_true]
      exact List.forall₂_nil_left_iff
  | cons part rest ih =>
      obtain ⟨key, x⟩ := part
      have hrest := fun {done} => @ih done fun other hother => h other (List.mem_cons_of_mem _ hother)
      constructor
      · rintro ⟨⟩
        rename_i entry done head tail
        obtain ⟨key', y⟩ := entry
        obtain ⟨rfl, hyields⟩ := head
        obtain ⟨between, hhead⟩ := hyields source (place key') notes
        obtain ⟨later, htail⟩ := (hrest between).1 tail
        exact ⟨later, .cons hhead htail⟩
      · rintro ⟨later, hthread⟩
        obtain ⟨y, after, between, rfl, hhead, htail⟩ := Thread.thread_cons_iff.1 hthread
        exact .cons ⟨rfl, h (key, x) List.mem_cons_self hhead⟩ ((hrest between).2 ⟨later, htail⟩)

/-- One pass over a value says what any other makes of it. -/
theorem yields_of_rewrites (h : v.Rewrites (around.rule source) path notes w later) :
    around.Yields v w := by
  induction v using Value.induction_on_children generalizing source path notes w later with
  | h v ih =>
      cases hv : v.isCompound with
      | true =>
          obtain ⟨parts, between, hthread, hrule⟩ := (Value.rewrites_iff hv).1 h
          intro other place more
          have hparts := (yieldsParts_iff path.push (fun part hpart => ih part hpart) notes).2
            ⟨between, hthread⟩
          obtain ⟨after, hthread⟩ := (@yieldsParts_iff around other _ _ place.push
            (fun part hpart => ih part hpart) more).1 hparts
          obtain ⟨last, hrule⟩ := turns_of_rule hrule other place after
          exact ⟨last, (Value.rewrites_iff hv).2 ⟨parts, after, hthread, hrule⟩⟩
      | false =>
          cases v with
          | null => exact absurd h Value.not_rewrites_null
          | scalar s =>
              obtain ⟨rfl, rfl⟩ := Value.rewrites_scalar_iff.1 h
              exact fun _ _ more => ⟨more, Value.rewrites_scalar_iff.2 ⟨rfl, rfl⟩⟩
          | _ => simp [Value.isCompound] at hv

/-- A pass goes over the parts of a compound node and then turns the node itself. -/
theorem yields_iff (hv : v.isCompound = true) : around.Yields v w ↔
    ∃ parts, around.YieldsParts v.children parts ∧ around.Turns (v.withChildren parts) w := by
  constructor
  · intro h
    obtain ⟨later, hrewrites⟩ := h "" [] {}
    obtain ⟨parts, between, hthread, hrule⟩ := (Value.rewrites_iff hv).1 hrewrites
    exact ⟨parts, (yieldsParts_iff (Path.push []) (fun _ _ => yields_of_rewrites) {}).2
      ⟨between, hthread⟩, turns_of_rule hrule⟩
  · rintro ⟨parts, hparts, hturns⟩ source path notes
    obtain ⟨between, hthread⟩ := (@yieldsParts_iff around source _ _ path.push
      (fun _ _ => yields_of_rewrites) notes).1 hparts
    obtain ⟨later, hrule⟩ := hturns source path between
    exact ⟨later, (Value.rewrites_iff hv).2 ⟨parts, between, hthread, hrule⟩⟩

@[simp] theorem yields_scalar_iff {s : Scalar} : around.Yields (.scalar s) w ↔ w = .scalar s := by
  constructor
  · intro h
    obtain ⟨later, hrewrites⟩ := h "" [] {}
    exact (Value.rewrites_scalar_iff.1 hrewrites).1
  · rintro rfl
    exact fun _ _ notes => ⟨notes, Value.rewrites_scalar_iff.2 ⟨rfl, rfl⟩⟩

theorem not_yields_null : ¬ around.Yields .null w := by
  intro h
  obtain ⟨later, hrewrites⟩ := h "" [] {}
  exact Value.not_rewrites_null hrewrites

/-- A pass makes one value of another. -/
theorem eq_of_yields {other : Value} (h : around.Yields v w) (hother : around.Yields v other) :
    w = other := by
  obtain ⟨later, hfirst⟩ := h "" [] {}
  obtain ⟨after, hsecond⟩ := hother "" [] {}
  exact (Progress.mk.inj (hfirst.symm.trans hsecond)).1

theorem yields_of_apply {outcome : Outcome} (h : around.apply source v = .ok (w, outcome)) :
    around.Yields v w :=
  yields_of_rewrites (apply_eq_ok_iff.1 h)

theorem exists_apply_of_yields (h : around.Yields v w) (source : String) :
    ∃ outcome, around.apply source v = .ok (w, outcome) := by
  obtain ⟨outcome, hrewrites⟩ := h source [source] {}
  exact ⟨outcome, apply_eq_ok_iff.2 hrewrites⟩

/-! ## Ordinary nodes and targets -/

theorem turns_ordinary_iff (h : Form.recognize? node = .ok none) :
    around.Turns node w ↔ w = node := by
  constructor
  · intro hturns
    obtain ⟨later, hrule⟩ := hturns "" [] {}
    rw [rule, Rule.ofForms_ordinary h] at hrule
    exact (Prod.mk.inj (Except.ok.inj hrule)).1.symm
  · rintro rfl
    exact fun _ _ notes => ⟨notes, Rule.ofForms_ordinary h _ _ _⟩

/-- An ordinary node only changes in its parts. -/
theorem yields_ordinary_iff (hv : v.isCompound = true) (hordinary : v.isReserved = false) :
    around.Yields v w ↔
      ∃ parts, around.YieldsParts v.children parts ∧ w = v.withChildren parts := by
  rw [yields_iff hv]
  refine exists_congr fun parts => and_congr_right fun hparts => turns_ordinary_iff ?_
  exact Value.recognize?_of_not_isReserved
    (by rw [Value.isReserved_withChildren hparts.keys_eq, hordinary])

/-- A node that a pass turns is ordinary and stays, or it stands for a form. -/
theorem turns_cases (h : around.Turns node w) :
    (Form.recognize? node = .ok none ∧ w = node) ∨
      ∃ form, Form.recognize? node = .ok (some form) := by
  obtain ⟨later, hrule⟩ := h "" [] {}
  rcases Rule.ofForms_eq_ok hrule with ⟨hordinary, rfl, -⟩ | ⟨form, hform, -⟩
  · exact Or.inl ⟨hordinary, rfl⟩
  · exact Or.inr ⟨form, hform⟩

theorem turns_form_iff (h : Form.recognize? node = .ok (some form)) (source : String) (path : Path)
    (notes : Outcome) :
    around.Turns node w ↔ w = (around.settle source path node form notes).1 := by
  constructor
  · intro hturns
    obtain ⟨later, hrule⟩ := hturns source path notes
    rw [rule, Rule.ofForms_form h] at hrule
    exact (congrArg Prod.fst (Except.ok.inj hrule)).symm
  · rintro rfl
    exact turns_of_rule (Rule.ofForms_form h (around.settle source) path notes)

/-- What a free entity gives to those who ask for it or for an attribute of it. -/
def grant? (around : Surroundings) (placeholder : Placeholder) : Option Value :=
  match around.meaning placeholder.name with
  | .free target =>
    match placeholder.attr with
    | none => some target.reference
    | some attr =>
      if target.offers around.catalog attr then
        some (.getAtt (target.resourceName around.config) attr)
      else none
  | _ => none

/-- What is granted is the reference of a free entity, or an attribute of its resource. -/
theorem grant?_eq_some (h : around.grant? placeholder = some w) :
    ∃ target, around.meaning placeholder.name = .free target ∧
      ((placeholder.attr = none ∧ w = target.reference) ∨
        ∃ attr, placeholder.attr = some attr ∧
          w = .getAtt (target.resourceName around.config) attr) := by
  unfold grant? at h
  split at h
  · rename_i target hmeaning
    refine ⟨target, hmeaning, ?_⟩
    split at h
    · rename_i hattr
      exact Or.inl ⟨hattr, (Option.some.inj h).symm⟩
    · rename_i attr hattr
      split at h
      · exact Or.inr ⟨attr, hattr, (Option.some.inj h).symm⟩
      · simp at h
  · simp at h

/-- A name that no free entity has grants nothing. -/
theorem grant?_of_isOpen (h : (around.meaning placeholder.name).isOpen = true) :
    around.grant? placeholder = none := by
  unfold grant?
  cases hmeaning : around.meaning placeholder.name with
  | free target => simp [hmeaning, Meaning.isOpen] at h
  | _ => rfl

/-- What asks for a name that is open notes it, and nothing else is noted. -/
theorem mem_unresolved_settle {name : String}
    (hplaceholder : form.placeholder? = some placeholder) :
    name ∈ (around.settle source path node form notes).2.unresolved ↔
      name ∈ notes.unresolved ∨
        (around.meaning placeholder.name).isOpen = true ∧ name = placeholder.name := by
  cases form with
  | reference key =>
      obtain rfl := Option.some.inj hplaceholder
      simp only [settle, reference]
      cases around.meaning key with
      | free target => simp [Meaning.isOpen]
      | _ => exact Outcome.mem_unresolved_leave
  | attributeOf key attr =>
      obtain rfl := Option.some.inj hplaceholder
      simp only [settle, attributeOf]
      cases around.meaning key with
      | free target =>
          simp only [Meaning.isOpen, Bool.false_eq_true, false_and, or_false]
          split <;> exact Iff.rfl
      | _ => exact Outcome.mem_unresolved_leave
  | substitution => simp [Form.placeholder?] at hplaceholder

theorem settle_target_fst (hplaceholder : form.placeholder? = some placeholder) :
    (around.settle source path node form notes).1 = (around.grant? placeholder).getD node := by
  cases form with
  | reference key =>
      obtain rfl := Option.some.inj hplaceholder
      simp only [settle, reference, grant?]
      cases around.meaning key <;> rfl
  | attributeOf key attr =>
      obtain rfl := Option.some.inj hplaceholder
      simp only [settle, attributeOf, grant?]
      cases around.meaning key with
      | free target =>
          simp only
          by_cases hoffers : target.offers around.catalog attr = true
          · simp [checkAttribute_eq_ok_iff.2 hoffers, hoffers]
          · split
            · rename_i hcheck
              exact absurd (checkAttribute_eq_ok_iff.1 hcheck) hoffers
            · simp [hoffers]
      | _ => rfl
  | substitution => simp [Form.placeholder?] at hplaceholder

/-- What asks for an entity becomes what the entity grants, and stays if it grants nothing. -/
theorem turns_target_iff (hform : Form.recognize? node = .ok (some form))
    (hplaceholder : form.placeholder? = some placeholder) :
    around.Turns node w ↔ w = (around.grant? placeholder).getD node := by
  rw [turns_form_iff hform "" [] {}, settle_target_fst hplaceholder]

/-- A node that asks for an entity has no parts in which something could change. -/
theorem yields_target_iff (hform : Form.recognize? v = .ok (some form))
    (hplaceholder : form.placeholder? = some placeholder) :
    around.Yields v w ↔ w = (around.grant? placeholder).getD v := by
  have htarget := Form.placeholder?_eq_some hplaceholder
  rw [← @settle_target_fst around "" [] {} v _ _ hplaceholder]
  constructor
  · intro h
    obtain ⟨later, hrewrites⟩ := h "" [] {}
    exact (congrArg Prod.fst ((Value.rewrites_target_iff hform htarget).1 hrewrites)).symm
  · rintro rfl
    exact yields_of_rewrites ((Value.rewrites_target_iff hform htarget).2 rfl)

/-! ## Later surroundings -/

/-- Every entity that is free in the first surroundings is free in the second. -/
structure Precedes (earlier later : Surroundings) : Prop where
  config : later.config = earlier.config
  catalog : later.catalog = earlier.catalog
  free : ∀ {name target}, Entity.find? name earlier.free = some target →
    Entity.find? name later.free = some target

namespace Precedes

variable {earlier later final : Surroundings}

theorem refl (around : Surroundings) : Precedes around around := ⟨rfl, rfl, id⟩

theorem trans (first : Precedes earlier later) (second : Precedes later final) :
    Precedes earlier final :=
  ⟨second.config.trans first.config, second.catalog.trans first.catalog, second.free ∘ first.free⟩

theorem meaning_free (h : Precedes earlier later) {key : String}
    (hfree : earlier.meaning key = .free target) : later.meaning key = .free target := by
  obtain ⟨hexempt, hfind⟩ := meaning_eq_free_iff.1 hfree
  exact meaning_eq_free_iff.2 ⟨h.config ▸ hexempt, h.free hfind⟩

/-- What is granted once is granted from then on. -/
theorem grant? (h : Precedes earlier later) (hgrant : earlier.grant? placeholder = some w) :
    later.grant? placeholder = some w := by
  unfold Surroundings.grant? at hgrant ⊢
  cases hmeaning : earlier.meaning placeholder.name with
  | free target =>
      rw [hmeaning] at hgrant
      rw [h.meaning_free hmeaning, h.config, h.catalog]
      exact hgrant
  | _ => simp [hmeaning] at hgrant

/-- A name that grants nothing without being open will never grant anything. -/
theorem grant?_eq_none (h : Precedes earlier later) (hgrant : earlier.grant? placeholder = none)
    (hopen : (earlier.meaning placeholder.name).isOpen = false) :
    later.grant? placeholder = none := by
  unfold Surroundings.grant? at hgrant ⊢
  cases hmeaning : earlier.meaning placeholder.name with
  | free target =>
      rw [hmeaning] at hgrant
      rw [h.meaning_free hmeaning, h.config, h.catalog]
      exact hgrant
  | exempt =>
      have hexempt := meaning_eq_exempt_iff.1 hmeaning
      rw [meaning_eq_exempt_iff.2 (h.config ▸ hexempt)]
  | _ => simp [hmeaning, Meaning.isOpen] at hopen

end Precedes

/-! ## Values at rest -/

/-- A pass leaves the value as it is. -/
def Rests (around : Surroundings) (v : Value) : Prop := around.Yields v v

theorem rests_scalar (s : Scalar) : around.Rests (.scalar s) := yields_scalar_iff.2 rfl

/-- A compound value is at rest if its parts are and the node itself stays. -/
theorem rests_of_parts (hv : v.isCompound = true) (hparts : ∀ part ∈ v.children, around.Rests part.2)
    (hnode : around.Turns v v) : around.Rests v := by
  refine (yields_iff hv).2 ⟨v.children, List.forall₂_same.2 fun part hpart => ?_, ?_⟩
  · exact ⟨rfl, hparts part hpart⟩
  · rwa [Value.withChildren_children]

/-- Scalars and lists of scalars have nothing in them that could change. -/
theorem rests_of_classify {name : String} (h : v.classify name = .ok .free) : around.Rests v := by
  rcases Value.classify_eq_free_iff.1 h with ⟨s, rfl⟩ | ⟨items, rfl, hscalars⟩
  · exact rests_scalar s
  · refine rests_of_parts rfl (Value.forall_children_list.2 fun item hitem => ?_)
      ((turns_ordinary_iff rfl).2 rfl)
    obtain ⟨s, rfl⟩ := hscalars item hitem
    exact rests_scalar s

end Surroundings

end StackLinker
