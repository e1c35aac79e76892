import StackLinker.Proofs.Form.Shapes
import StackLinker.Proofs.Module.Lookup
import StackLinker.Proofs.Pattern.Filling
import StackLinker.Proofs.Substitution.FreshName

/-!
# What a pass finds and answers

The notes of a pass only grow: what was found once is never forgotten (`Outcome.GrowsTo`).  The
same holds of the filling of a pattern, whose arguments are only added to (`Filling.GrowsTo`).

`Answered` lists everything that can happen to one placeholder, and `answered` says that the list is
complete; all later arguments about patterns go through it.
-/

namespace StackLinker

namespace Outcome

/-- Notes that were taken later in the same pass. -/
structure GrowsTo (around : Surroundings) (before after : Outcome) : Prop where
  bound : before.bound <+: after.bound
  missing : before.missing <+: after.missing
  invalid : before.invalid <+: after.invalid
  /-- Only names of bound entities are noted as such. -/
  known : ∀ u ∈ after.bound, u ∈ before.bound ∨ u.key ∈ around.bound

instance (around : Surroundings) : IsPreorder Outcome (GrowsTo around) where
  refl _ := ⟨List.prefix_refl _, List.prefix_refl _, List.prefix_refl _, fun _ => Or.inl⟩
  trans _ _ _ first second :=
    ⟨first.bound.trans second.bound, first.missing.trans second.missing,
      first.invalid.trans second.invalid,
      fun u hu => (second.known u hu).elim (first.known u) Or.inr⟩

/-- The names that were left in place. -/
def unresolved (outcome : Outcome) : List String :=
  (outcome.bound ++ outcome.missing).map (·.key)

/-- Nothing was left in place and no attribute was refused. -/
def IsClean (outcome : Outcome) : Prop :=
  outcome.unresolved = [] ∧ outcome.invalid = []

variable {around : Surroundings} {before after outcome : Outcome} {key : String}

theorem mem_unresolved : key ∈ outcome.unresolved ↔
    key ∈ outcome.bound.map (·.key) ∨ key ∈ outcome.missing.map (·.key) := by
  simp [unresolved]

theorem isResolved_iff : outcome.isResolved = true ↔ outcome.unresolved = [] := by
  simp [isResolved, unresolved]

theorem GrowsTo.unresolved_subset (h : before.GrowsTo around after) :
    before.unresolved ⊆ after.unresolved := by
  intro key hkey
  rw [mem_unresolved] at hkey ⊢
  exact hkey.imp (fun hb => (h.bound.map _).subset hb) fun hm => (h.missing.map _).subset hm

theorem GrowsTo.isClean (h : before.GrowsTo around after) (hclean : after.IsClean) :
    before.IsClean :=
  ⟨List.subset_nil.1 (hclean.1 ▸ h.unresolved_subset),
    List.prefix_nil.1 (hclean.2 ▸ h.invalid)⟩

theorem growsTo_refuse (around : Surroundings) (outcome : Outcome) (diagnostic : Diagnostic) :
    outcome.GrowsTo around (outcome.refuse diagnostic) :=
  ⟨List.prefix_refl _, List.prefix_refl _, List.prefix_append _ _, fun _ => Or.inl⟩

theorem not_isClean_refuse (outcome : Outcome) (diagnostic : Diagnostic) :
    ¬ (outcome.refuse diagnostic).IsClean := by
  rintro ⟨-, hinvalid⟩
  simp [refuse] at hinvalid

end Outcome

/-- Whether all faults are refused attributes. -/
def Outcome.BlamesAttributes (outcome : Outcome) : Prop :=
  ∀ diagnostic ∈ outcome.invalid, diagnostic.kind = .invalidAttribute

theorem Outcome.BlamesAttributes.leave {outcome : Outcome} (h : outcome.BlamesAttributes)
    (meaning : Meaning) (key : String) (path : Path) :
    (outcome.leave meaning key path).BlamesAttributes := by
  cases meaning <;> exact h

theorem Outcome.BlamesAttributes.refuse {outcome : Outcome} {diagnostic : Diagnostic}
    (h : outcome.BlamesAttributes) (hkind : diagnostic.kind = .invalidAttribute) :
    (outcome.refuse diagnostic).BlamesAttributes := by
  intro other hother
  rcases List.mem_append.1 hother with hother | hother
  · exact h other hother
  · rw [List.mem_singleton.1 hother, hkind]

/-- Whether a name with this meaning has to stay in place. -/
def Meaning.isOpen : Meaning → Bool
  | .bound | .missing => true
  | .exempt | .free _ => false

namespace Outcome

variable {outcome : Outcome} {meaning : Meaning} {key other : String} {path : Path}

theorem mem_unresolved_leave : other ∈ (outcome.leave meaning key path).unresolved ↔
    other ∈ outcome.unresolved ∨ meaning.isOpen = true ∧ other = key := by
  cases meaning <;> simp [leave, mem_unresolved, Meaning.isOpen, or_assoc, or_comm, or_left_comm]

end Outcome

namespace Surroundings

variable {around : Surroundings} {key source : String} {target : Entity} {path : Path}

/-! ## Meanings -/

theorem meaning_eq_exempt_iff :
    around.meaning key = .exempt ↔ around.config.isExempt key = true := by
  unfold meaning
  split
  · simp_all
  · split <;> (try split) <;> simp_all

theorem meaning_eq_free_iff : around.meaning key = .free target ↔
    around.config.isExempt key = false ∧ Entity.find? key around.free = some target := by
  unfold meaning
  split
  · simp_all
  · split <;> (try split) <;> simp_all

theorem meaning_eq_bound_iff : around.meaning key = .bound ↔
    around.config.isExempt key = false ∧ Entity.find? key around.free = none ∧
      key ∈ around.bound := by
  unfold meaning
  split
  · simp_all
  · split <;> (try split) <;> simp_all

theorem meaning_eq_missing_iff : around.meaning key = .missing ↔
    around.config.isExempt key = false ∧ Entity.find? key around.free = none ∧
      key ∉ around.bound := by
  unfold meaning
  split
  · simp_all
  · split <;> (try split) <;> simp_all

/-- A name stays in place if it is not exempt and no free entity has it. -/
theorem isOpen_meaning_iff : (around.meaning key).isOpen = true ↔
    around.config.isExempt key = false ∧ Entity.find? key around.free = none := by
  unfold meaning
  split
  · simp_all [Meaning.isOpen]
  · split <;> (try split) <;> simp_all [Meaning.isOpen]

theorem mem_names_or_isOpen (hexempt : around.config.isExempt key = false) :
    key ∈ Entity.names around.free ∨ (around.meaning key).isOpen = true := by
  rw [isOpen_meaning_iff, Entity.find?_eq_none_iff]
  by_cases h : key ∈ Entity.names around.free
  · exact Or.inl h
  · exact Or.inr ⟨hexempt, h⟩

theorem mem_free_of_meaning (h : around.meaning key = .free target) :
    target ∈ around.free :=
  Entity.mem_of_find? (meaning_eq_free_iff.1 h).2

theorem mem_names_of_meaning (h : around.meaning key = .free target) :
    key ∈ Entity.names around.free := by
  obtain ⟨-, hfind⟩ := meaning_eq_free_iff.1 h
  exact Entity.fullName_of_find? hfind ▸ Entity.fullName_mem_names (Entity.mem_of_find? hfind)

theorem notMem_names_of_isOpen (h : (around.meaning key).isOpen = true) :
    key ∉ Entity.names around.free :=
  Entity.find?_eq_none_iff.1 (isOpen_meaning_iff.1 h).2

theorem mem_bound_of_meaning (h : around.meaning key = .bound) : key ∈ around.bound := by
  unfold meaning at h
  split at h
  · simp at h
  · split at h <;> (try split at h) <;> simp_all

end Surroundings

theorem Outcome.growsTo_leave (around : Surroundings) (outcome : Outcome) {meaning : Meaning}
    {key : String} (h : around.meaning key = meaning) (path : Path) :
    outcome.GrowsTo around (outcome.leave meaning key path) := by
  cases meaning with
  | bound =>
      refine ⟨List.prefix_append _ _, List.prefix_refl _, List.prefix_refl _, ?_⟩
      intro u hu
      rcases List.mem_append.1 hu with hu | hu
      · exact Or.inl hu
      · rw [List.mem_singleton.1 hu]
        exact Or.inr (Surroundings.mem_bound_of_meaning h)
  | missing =>
      exact ⟨List.prefix_refl _, List.prefix_append _ _, List.prefix_refl _, fun _ => Or.inl⟩
  | exempt => exact refl_of (GrowsTo around) outcome
  | free => exact refl_of (GrowsTo around) outcome

/-! ## Placeholders -/

/-- The placeholder that asks for the same as a reference or an attribute. -/
def Form.placeholder? : Form → Option Placeholder
  | .reference key => some ⟨key, none⟩
  | .attributeOf key attr => some ⟨key, some attr⟩
  | .substitution .. => none

theorem Form.placeholder?_eq_some {form : Form} {placeholder : Placeholder}
    (h : form.placeholder? = some placeholder) : form.target? = some placeholder.name := by
  cases form <;> simp only [placeholder?, Option.some.injEq, reduceCtorEq] at h <;>
    subst h <;> rfl

theorem Form.peek_eq_some_iff {v : Value} {form : Form} :
    peek v = some form ↔ recognize? v = .ok (some form) := by
  unfold peek
  cases recognize? v with
  | error e => simp [Except.toOption]
  | ok found => simp [Except.toOption]

namespace Surroundings

/-- An argument that a pass adds: the reference of a free entity under a numbered name. -/
structure IsAdded (around : Surroundings) (argument : String × Value) : Prop where
  name : ∃ number, argument.1 = around.syntheticName number
  value : ∃ target ∈ around.free, argument.2 = target.reference

namespace Filling

/-- The filling of a pattern at a later place. -/
structure GrowsTo (around : Surroundings) (before after : Filling) : Prop where
  arguments : ∃ added, after.arguments = before.arguments ++ added ∧
    ∀ argument ∈ added, around.IsAdded argument
  outcome : before.outcome.GrowsTo around after.outcome
  changed : before.changed = true → after.changed = true
  unchanged : after.changed = false → after.arguments = before.arguments

instance (around : Surroundings) : IsPreorder Filling (GrowsTo around) where
  refl _ := ⟨⟨[], by simp⟩, refl_of (Outcome.GrowsTo around) _, id, fun _ => rfl⟩
  trans _ _ _ first second := by
    obtain ⟨added, hadded, hfirst⟩ := first.arguments
    obtain ⟨more, hmore, hsecond⟩ := second.arguments
    refine ⟨⟨added ++ more, by rw [hmore, hadded, List.append_assoc], ?_⟩,
      trans_of (Outcome.GrowsTo around) first.outcome second.outcome,
      second.changed ∘ first.changed, fun hafter => ?_⟩
    · intro argument hmem
      exact (List.mem_append.1 hmem).elim (hfirst argument) (hsecond argument)
    · -- What has not changed in the end had not changed in between.
      have hbetween := eq_false_of_ne_true fun h =>
        Bool.false_ne_true (hafter.symm.trans (second.changed h))
      rw [second.unchanged hafter, first.unchanged hbetween]

/-- Added arguments do not make a reserved key the only one. -/
theorem isReserved_append {around : Surroundings} (arguments : Fields Value) {added : Fields Value}
    (hadded : ∀ argument ∈ added, around.IsAdded argument) :
    Fields.isReserved (arguments ++ added) = (added.isEmpty && Fields.isReserved arguments) := by
  cases added with
  | nil => simp
  | cons first rest =>
      obtain ⟨number, hname⟩ := (hadded first List.mem_cons_self).name
      obtain ⟨name, value⟩ := first
      -- A single key of the longer map would be an added one, which is no reserved key.
      have hreserved := syntheticName_ne_reserved around number
      rw [← hname] at hreserved
      rcases arguments with _ | ⟨argument, _ | ⟨_, _⟩⟩ <;> cases rest <;>
        first | rfl | simpa [Fields.isReserved] using hreserved

/-- What holds of the declared arguments and of the values of free entities holds of the extended
map, if it can be read off from the parts of ordinary maps. -/
theorem map_append {around : Surroundings} {P : Value → Prop} {declared added : Fields Value}
    (hparts : P (.map declared) → ∀ argument ∈ declared, P argument.2)
    (hordinary : ∀ entries, Fields.isReserved entries = false → (∀ entry ∈ entries, P entry.2) →
      P (.map entries))
    (hdeclared : P (.map declared)) (hadded : ∀ argument ∈ added, around.IsAdded argument)
    (hfree : ∀ target ∈ around.free, P target.reference) : P (.map (declared ++ added)) := by
  by_cases hnil : added = []
  · rwa [hnil, List.append_nil]
  · -- With an added argument the map has a key that is not reserved.
    refine hordinary _ (by simp [isReserved_append declared hadded, hnil]) fun argument hargument => ?_
    rcases List.mem_append.1 hargument with hargument | hargument
    · exact hparts hdeclared argument hargument
    · obtain ⟨target, htarget, hvalue⟩ := (hadded argument hargument).value
      exact hvalue ▸ hfree target htarget

theorem GrowsTo.keys_subset {around : Surroundings} {before after : Filling}
    (h : GrowsTo around before after) : before.arguments.keys ⊆ after.arguments.keys := by
  obtain ⟨added, hadded, -⟩ := h.arguments
  rw [hadded]
  simp [Fields.keys]

end Filling

variable {around : Surroundings} {source : String} {path : Path} {placeholder : Placeholder}
  {filling : Filling}

/-- Everything that can happen to a placeholder: the text that comes into its place, if any, and
the state of the filling behind it. -/
inductive Answered (around : Surroundings) (placeholder : Placeholder) (filling : Filling) :
    Option String → Filling → Prop
  /-- The substitution has an argument of this name. -/
  | own (h : placeholder.name ∈ filling.arguments.keys) :
      Answered around placeholder filling none filling
  | exempt (h : around.config.isExempt placeholder.name = true) :
      Answered around placeholder filling none filling
  /-- The target has a text. -/
  | text {target : Entity} {s : Scalar}
      (hfree : around.meaning placeholder.name = .free target)
      (hreference : target.reference = .scalar s)
      (hown : placeholder.name ∉ filling.arguments.keys) :
      Answered around placeholder filling (some s.text) { filling with changed := true }
  /-- The target is itself a reference or an attribute. -/
  | forward {target : Entity} {form : Form} {next : Placeholder}
      (hfree : around.meaning placeholder.name = .free target)
      (hreference : Form.recognize? target.reference = .ok (some form))
      (hnext : form.placeholder? = some next)
      (hown : placeholder.name ∉ filling.arguments.keys) :
      Answered around placeholder filling (some next.text) { filling with changed := true }
  /-- The target has another value, which is added to the arguments. -/
  | argument {target : Entity} {number : Nat}
      (hfree : around.meaning placeholder.name = .free target)
      (hnumber : around.syntheticName number ∉ filling.arguments.keys) :
      Answered around placeholder filling
        (some (Placeholder.mk (around.syntheticName number) none).text)
        { filling with
          arguments := filling.arguments ++ [(around.syntheticName number, target.reference)]
          next := number + 1
          changed := true }
  /-- An attribute of the target is asked for. -/
  | attributeOf {target : Entity} {attr : String}
      (hfree : around.meaning placeholder.name = .free target)
      (hattr : placeholder.attr = some attr) :
      Answered around placeholder filling
        (some (Placeholder.mk (target.resourceName around.config) (some attr)).text)
        { filling with changed := true }
  | refused {target : Entity} {e : Diagnostic}
      (hfree : around.meaning placeholder.name = .free target) :
      Answered around placeholder filling none
        { filling with outcome := filling.outcome.refuse e }
  | left {meaning : Meaning} {path : Path} (hown : placeholder.name ∉ filling.arguments.keys)
      (h : around.meaning placeholder.name = meaning) (hopen : meaning.isOpen = true) :
      Answered around placeholder filling none
        { filling with outcome := filling.outcome.leave meaning placeholder.name path }

private theorem answered_splice {target : Entity}
    (hfree : around.meaning placeholder.name = .free target)
    (hown : placeholder.name ∉ filling.arguments.keys) :
    Answered around placeholder filling (some (around.splice target.reference filling).1)
      { (around.splice target.reference filling).2 with changed := true } := by
  cases hreference : target.reference with
  | scalar s => exact .text hfree hreference hown
  | _ =>
      simp only [splice]
      split
      · rename_i key hpeek
        rw [← hreference] at hpeek
        exact .forward hfree (Form.peek_eq_some_iff.1 hpeek) rfl hown
      · rename_i key attr hpeek
        rw [← hreference] at hpeek
        exact .forward hfree (Form.peek_eq_some_iff.1 hpeek) rfl hown
      · have hnumber := freshNumber_notMem around filling.arguments filling.next
        rw [Fields.insert_of_notMem _ hnumber, ← hreference]
        exact .argument hfree hnumber

theorem outcome_splice (around : Surroundings) (value : Value) (filling : Filling) :
    (around.splice value filling).2.outcome = filling.outcome := by
  unfold splice
  split
  · rfl
  · split <;> rfl

/-- The answer to a placeholder is one of the listed ones. -/
theorem answered (around : Surroundings) (source : String) (path : Path)
    (placeholder : Placeholder) (filling : Filling) :
    Answered around placeholder filling (around.answer source path placeholder filling).1
      (around.answer source path placeholder filling).2 := by
  unfold answer
  split
  · rename_i hown
    exact .own (Fields.contains_iff_mem_keys.1 hown)
  · rename_i hown
    rw [Fields.contains_iff_mem_keys] at hown
    cases hmeaning : around.meaning placeholder.name with
    | exempt => exact .exempt (meaning_eq_exempt_iff.1 hmeaning)
    | free target =>
        cases hattr : placeholder.attr with
        | none => exact answered_splice hmeaning hown
        | some attr =>
            simp only
            split
            · exact .attributeOf hmeaning hattr
            · exact .refused hmeaning
    | bound => exact .left hown hmeaning rfl
    | missing => exact .left hown hmeaning rfl

theorem Answered.grows {text : Option String} {after : Filling}
    (h : Answered around placeholder filling text after) : filling.GrowsTo around after := by
  have hrefl := refl_of (Filling.GrowsTo around) filling
  cases h with
  | own => exact hrefl
  | exempt => exact hrefl
  | text => exact ⟨hrefl.arguments, hrefl.outcome, fun _ => rfl, fun _ => rfl⟩
  | forward => exact ⟨hrefl.arguments, hrefl.outcome, fun _ => rfl, fun _ => rfl⟩
  | argument hfree =>
      rename_i target number _
      refine ⟨⟨_, rfl, fun argument hmem => ?_⟩, hrefl.outcome, fun _ => rfl, by simp⟩
      rw [List.mem_singleton.1 hmem]
      have hmem := Entity.mem_of_find? (meaning_eq_free_iff.1 hfree).2
      exact ⟨⟨number, rfl⟩, ⟨target, hmem, rfl⟩⟩
  | attributeOf => exact ⟨hrefl.arguments, hrefl.outcome, fun _ => rfl, fun _ => rfl⟩
  | refused => exact ⟨hrefl.arguments, Outcome.growsTo_refuse _ _ _, id, fun _ => rfl⟩
  | left _ hmeaning => exact ⟨hrefl.arguments, Outcome.growsTo_leave _ _ hmeaning _, id,
      fun _ => rfl⟩

theorem growsTo_answer (around : Surroundings) (source : String) (path : Path)
    (placeholder : Placeholder) (filling : Filling) :
    filling.GrowsTo around (around.answer source path placeholder filling).2 :=
  (answered around source path placeholder filling).grows

/-- A placeholder that no argument binds and no free entity settles stays, and is noted. -/
theorem answer_of_isOpen {placeholder : Placeholder} {filling : Filling}
    (hown : placeholder.name ∉ filling.arguments.keys)
    (hopen : (around.meaning placeholder.name).isOpen = true) :
    (around.answer source path placeholder filling).1 = none ∧
      placeholder.name ∈
        (around.answer source path placeholder filling).2.outcome.unresolved := by
  have hanswered := answered around source path placeholder filling
  generalize (around.answer source path placeholder filling).1 = text at hanswered
  generalize (around.answer source path placeholder filling).2 = after at hanswered
  have hnot : ∀ target, around.meaning placeholder.name ≠ .free target := by
    intro target hfree
    simp [hfree, Meaning.isOpen] at hopen
  cases hanswered with
  | own h => exact absurd h hown
  | exempt h =>
      rw [meaning_eq_exempt_iff.2 h] at hopen
      simp [Meaning.isOpen] at hopen
  | text hfree => exact absurd hfree (hnot _)
  | forward hfree => exact absurd hfree (hnot _)
  | argument hfree => exact absurd hfree (hnot _)
  | attributeOf hfree => exact absurd hfree (hnot _)
  | refused hfree => exact absurd hfree (hnot _)
  | left _ _ hleft => exact ⟨rfl, Outcome.mem_unresolved_leave.2 (Or.inr ⟨hleft, rfl⟩)⟩

/-! ## Whole forms -/

theorem isReserved_of_done {before done : Fields Value} {R : String → Value → Outcome →
    Value → Outcome → Prop} {notes between : Outcome} (hthread : Thread R before notes done between)
    (hordinary : Fields.isReserved before = false) {added : Fields Value}
    (hadded : ∀ argument ∈ added, around.IsAdded argument) :
    Fields.isReserved (done ++ added) = false := by
  rw [Filling.isReserved_append _ hadded, Fields.isReserved_congr hthread.keys_eq, hordinary,
    Bool.and_false]

/-- Where the filling of a pattern starts. -/
def Filling.start (arguments : Option (Fields Value)) (outcome : Outcome) : Filling :=
  { arguments := arguments.getD [], next := 0, changed := false, outcome := outcome }

/-- What a substitution becomes, in terms of its filled pattern. -/
theorem substitution_cases (around : Surroundings) (source : String) (path : Path) (node : Value)
    (pattern : String) (arguments : Option (Fields Value)) (outcome : Outcome) :
    ∃ text filling,
      Pattern.fill (around.answer source path) pattern (.start arguments outcome) =
        (text, filling) ∧
      (around.substitution source path node pattern arguments outcome).2 = filling.outcome ∧
      ((filling.arguments = [] ∧ Pattern.hasHoles text = false ∧
          (around.substitution source path node pattern arguments outcome).1 = .string text) ∨
        (¬ (filling.arguments = [] ∧ Pattern.hasHoles text = false) ∧
          (around.substitution source path node pattern arguments outcome).1 =
            .sub text filling.arguments) ∨
        (filling.changed = false ∧
          (around.substitution source path node pattern arguments outcome).1 = node)) := by
  refine ⟨_, _, rfl, ?_, ?_⟩
  · unfold substitution Filling.start
    simp only
    split
    · rfl
    · split <;> rfl
  · unfold substitution Filling.start
    simp only
    split
    · rename_i hplain
      simp only [Bool.and_eq_true, List.isEmpty_iff, Bool.not_eq_true'] at hplain
      exact Or.inl ⟨hplain.1, hplain.2, rfl⟩
    · rename_i hplain
      simp only [Bool.and_eq_true, List.isEmpty_iff, Bool.not_eq_true'] at hplain
      split
      · exact Or.inr (Or.inl ⟨hplain, rfl⟩)
      · rename_i hchanged
        exact Or.inr (Or.inr ⟨eq_false_of_ne_true hchanged, rfl⟩)

theorem growsTo_fill (around : Surroundings) (source : String) (path : Path) (pattern : String)
    (filling : Filling) :
    filling.GrowsTo around (Pattern.fill (around.answer source path) pattern filling).2 :=
  Pattern.fillPieces_grows (growsTo_answer around source path) _ filling

/-- Whatever a form becomes, the notes of the pass only grow. -/
theorem growsTo_settle (around : Surroundings) (source : String) (path : Path) (node : Value)
    (form : Form) (outcome : Outcome) :
    outcome.GrowsTo around (around.settle source path node form outcome).2 := by
  have hrefl := refl_of (Outcome.GrowsTo around) outcome
  cases form with
  | reference key =>
      simp only [settle, reference]
      cases hmeaning : around.meaning key with
      | free => exact hrefl
      | _ => exact Outcome.growsTo_leave around outcome hmeaning path
  | attributeOf key attr =>
      simp only [settle, attributeOf]
      cases hmeaning : around.meaning key with
      | free target =>
          simp only
          split
          · exact hrefl
          · exact Outcome.growsTo_refuse _ _ _
      | _ => exact Outcome.growsTo_leave around outcome hmeaning path
  | substitution pattern arguments =>
      obtain ⟨text, filling, hfill, hnotes, -⟩ :=
        substitution_cases around source path node pattern arguments outcome
      have hgrows := (growsTo_fill around source path pattern (.start arguments outcome)).outcome
      rw [hfill] at hgrows
      exact hnotes ▸ hgrows

/-- The rule of a pass only adds to the notes. -/
theorem growsTo_rule {node value : Value} {before after : Outcome}
    (h : around.rule source path node before = .ok (value, after)) :
    before.GrowsTo around after := by
  rcases Rule.ofForms_eq_ok h with ⟨-, -, rfl⟩ | ⟨form, -, hsettle⟩
  · exact refl_of (Outcome.GrowsTo around) after
  · have hgrows := growsTo_settle around source path node form before
    rwa [hsettle] at hgrows

/-- A whole pass only adds to its notes. -/
theorem growsTo_rewrites {v w : Value} {before after : Outcome}
    (h : v.Rewrites (around.rule source) path before w after) : before.GrowsTo around after :=
  Value.rewrites_grows (fun _ _ _ _ _ => growsTo_rule) h

/-! ## What forms preserve of the notes -/

section Preserves

variable {P : Outcome → Prop}

/-- What leaving a name in place and refusing an attribute preserve of the notes, the answer to a
placeholder preserves. -/
theorem answer_preserves
    (hleave : ∀ {outcome} meaning key, P outcome → P (outcome.leave meaning key path))
    (hrefuse : ∀ {outcome target attr e}, around.checkAttribute source target attr path = .error e →
      P outcome → P (outcome.refuse e))
    (placeholder : Placeholder) {filling : Filling} (h : P filling.outcome) :
    P (around.answer source path placeholder filling).2.outcome := by
  unfold answer
  split
  · exact h
  · split
    · split
      · simpa only [outcome_splice] using h
      · split
        · exact h
        · rename_i e he
          exact hrefuse he h
    · exact hleave _ _ h

/-- The same of whatever a form becomes. -/
theorem settle_preserves
    (hleave : ∀ {outcome} meaning key, P outcome → P (outcome.leave meaning key path))
    (hrefuse : ∀ {outcome target attr e}, around.checkAttribute source target attr path = .error e →
      P outcome → P (outcome.refuse e))
    (node : Value) (form : Form) {outcome : Outcome} (h : P outcome) :
    P (around.settle source path node form outcome).2 := by
  cases form with
  | reference key =>
      simp only [settle, reference]
      split
      · exact h
      · exact hleave _ _ h
  | attributeOf key attr =>
      simp only [settle, attributeOf]
      split
      · split
        · exact h
        · rename_i e he
          exact hrefuse he h
      · exact hleave _ _ h
  | substitution pattern arguments =>
      obtain ⟨text, filling, hfill, hnotes, -⟩ :=
        substitution_cases around source path node pattern arguments outcome
      have hstep : ∀ inner placeholder (filling : Filling), .hole inner ∈ Pattern.pieces pattern →
          Placeholder.ofHole? inner = some placeholder → P filling.outcome →
          P (around.answer source path placeholder filling).2.outcome :=
        fun _ placeholder _ _ _ hfilling => answer_preserves hleave hrefuse placeholder hfilling
      have hkeeps : P (Pattern.fill (around.answer source path) pattern
          (.start arguments outcome)).2.outcome := Pattern.fillPieces_invariant hstep h
      rw [hfill] at hkeeps
      exact hnotes ▸ hkeeps

end Preserves

/-! ## Refused attributes -/

theorem checkAttribute_eq_error {target : Entity} {attr : String} {e : Diagnostic}
    (h : around.checkAttribute source target attr path = .error e) :
    ∃ message, e = .invalidAttribute source target.fullName path.text message := by
  unfold checkAttribute at h
  split at h
  · exact ⟨_, (Except.error.inj h).symm⟩
  · split at h
    · simp at h
    · split at h
      · simp at h
      · exact ⟨_, (Except.error.inj h).symm⟩

theorem kind_of_checkAttribute {target : Entity} {attr : String} {e : Diagnostic}
    (h : around.checkAttribute source target attr path = .error e) :
    e.kind = .invalidAttribute := by
  obtain ⟨message, rfl⟩ := checkAttribute_eq_error h
  rfl

/-- A pass refuses nothing but attributes. -/
theorem blamesAttributes_of_rewrites {v w : Value} {before after : Outcome}
    (h : v.Rewrites (around.rule source) path before w after) (hbefore : before.BlamesAttributes) :
    after.BlamesAttributes := by
  refine Value.rewrites_preserves (P := Outcome.BlamesAttributes) ?_ h hbefore
  intro path node notes value later hrule hnotes
  rcases Rule.ofForms_eq_ok hrule with ⟨-, -, rfl⟩ | ⟨form, -, hsettle⟩
  · exact hnotes
  · have hkeeps : (around.settle source path node form notes).2.BlamesAttributes :=
      settle_preserves (fun meaning key h => h.leave meaning key path)
        (fun he h => h.refuse (kind_of_checkAttribute he)) node form hnotes
    rwa [hsettle] at hkeeps

theorem apply_eq_ok_iff {v w : Value} {outcome : Outcome} :
    around.apply source v = .ok (w, outcome) ↔
      v.Rewrites (around.rule source) [source] {} w outcome :=
  Value.toExcept_traverse_eq_ok_iff

end Surroundings

end StackLinker
