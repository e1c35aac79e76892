import StackLinker.Proofs.Finalization.Patterns
import StackLinker.Proofs.Form.Places
import StackLinker.Proofs.Linking.Finalization

/-!
# Finalization, node by node

What finalization does to a value that it gets through, in the shape in which properties of it are
proved.  A scalar stays, an ordinary node changes in its parts, a reference or an attribute is
written anew, and so is a substitution, once its argument map is finalized
(`Value.finalize_induction`).  A map keeps its keys, even where it is a form itself
(`Value.keys_of_finalize`).
-/

namespace StackLinker

variable {config : Config} {path : Path} {root : String} {v w : Value}

/-! ## Forms -/

namespace Config

theorem bareForm_reference (config : Config) (key : String) :
    config.bareForm (.ref key) (.reference key) = .ref (config.bareName key) := by
  simp only [bareForm, bareName]
  cases config.stripPreserve? key <;> rfl

/-- An attribute that carries the marker is written as a list of two strings. -/
theorem bareForm_attributeOf (config : Config) (node : Value) (key attr : String) :
    config.bareForm node (.attributeOf key attr) =
      if config.IsMarked key then .getAtt (config.bareName key) attr else node := by
  simp only [bareForm, bareName]
  cases hstrip : config.stripPreserve? key with
  | none => simp [stripPreserve?_eq_none_iff.1 hstrip]
  | some bare =>
      have hmarked : config.IsMarked key := by
        by_contra hnot
        simp [stripPreserve?_eq_none_iff.2 hnot] at hstrip
      simp [hmarked]

/-- A pattern that changes loses an empty argument map. -/
theorem bareForm_template (config : Config) (pattern : String)
    (arguments : Option (Fields Value)) :
    config.bareForm (.template pattern arguments) (.substitution pattern arguments) =
      .template (config.barePattern pattern)
        (if config.barePattern pattern = pattern ∨ arguments ≠ some [] then arguments
          else none) := by
  unfold bareForm
  by_cases hsame : config.barePattern pattern = pattern
  · simp [hsame]
  · simp only [hsame, if_false, false_or, Value.sub_eq_template]
    rcases arguments with _ | _ | ⟨argument, rest⟩ <;> simp

variable {form : Form} {key : String}

/-- A reference or an attribute asks for the bare name afterwards. -/
theorem target?_bareForm (config : Config) (hform : Form.recognize? v = .ok (some form))
    (htarget : form.target? = some key) :
    ∃ other, Form.recognize? (config.bareForm v form) = .ok (some other) ∧
      other.target? = some (config.bareName key) := by
  cases form with
  | reference name =>
      obtain rfl := Form.recognize?_eq_reference_iff.1 hform
      obtain rfl := Option.some.inj htarget
      exact ⟨.reference _, by rw [bareForm_reference, Form.recognize?_ref], rfl⟩
  | attributeOf name attr =>
      obtain rfl := Option.some.inj htarget
      refine ⟨.attributeOf (config.bareName name) attr, ?_, rfl⟩
      rw [bareForm_attributeOf]
      split
      · exact Form.recognize?_getAtt _ _
      · rename_i hmarked
        rwa [bareName_of_not_isMarked hmarked]
  | substitution => simp [Form.target?] at htarget

/-- A reference or an attribute stays as it is if its name does not carry the marker. -/
theorem bareForm_eq_self_iff (hform : Form.recognize? v = .ok (some form))
    (htarget : form.target? = some key) :
    config.bareForm v form = v ↔ ¬ config.IsMarked key := by
  rw [← bareName_eq_self_iff]
  constructor
  · intro h
    obtain ⟨other, hother, hname⟩ := target?_bareForm config hform htarget
    rw [h, hform] at hother
    obtain rfl := Option.some.inj (Except.ok.inj hother)
    exact Option.some.inj (hname.symm.trans htarget)
  · intro h
    cases form with
    | reference name =>
        obtain rfl := Form.recognize?_eq_reference_iff.1 hform
        obtain rfl := Option.some.inj htarget
        rw [bareForm_reference, h]
    | attributeOf name attr =>
        obtain rfl := Option.some.inj htarget
        rw [bareForm_attributeOf, if_neg (bareName_eq_self_iff.1 h)]
    | substitution => simp [Form.target?] at htarget

/-- A form is written under the key that it had. -/
theorem exists_key_bareForm (hform : Form.recognize? v = .ok (some form)) :
    ∃ key body after, v = .map [(key, body)] ∧
      config.bareForm v form = .map [(key, after)] := by
  cases form with
  | reference key =>
      obtain rfl := Form.recognize?_eq_reference_iff.1 hform
      rw [bareForm_reference]
      exact ⟨Form.refKey, _, _, rfl, rfl⟩
  | attributeOf key attr =>
      rw [bareForm_attributeOf]
      rcases Form.recognize?_eq_attributeOf hform with rfl | ⟨s, rfl, -⟩ <;> split <;>
        exact ⟨Form.getAttKey, _, _, rfl, rfl⟩
  | substitution pattern arguments =>
      obtain rfl := Form.recognize?_eq_substitution_iff.1 hform
      rw [bareForm_template]
      exact ⟨Form.subKey, _, _, rfl, rfl⟩

end Config

/-! ## Values -/

namespace Value

/-- A value that finalization gets through is well-formed. -/
theorem isWellFormed_of_finalize_eq (h : v.Rewrites config.finalizeRule path () w ()) :
    v.isWellFormed = true :=
  isWellFormed_of_keepsMaps config.keepsMaps_bareAction h

/-- Induction along a finalization that reaches its end. -/
theorem finalize_induction {P : Value → Value → Prop}
    (scalar : ∀ s, P (.scalar s) (.scalar s))
    (ordinary : ∀ {v : Value} {parts}, v.isReserved = false →
      List.Forall₂ (fun old new => new.1 = old.1 ∧ P old.2 new.2) v.children parts →
        P v (v.withChildren parts))
    (target : ∀ {v form key}, Form.recognize? v = .ok (some form) → form.target? = some key →
      P v (config.bareForm v form))
    (pattern : ∀ text,
      P (.template text none) (config.bareForm (.template text none) (.substitution text none)))
    (arguments : ∀ {text arguments done path},
      (Value.map arguments).Rewrites config.finalizeRule path () (.map done) () →
      P (.map arguments) (.map done) → P (.template text (some arguments))
        (config.bareForm (.template text (some done)) (.substitution text (some done))))
    (h : v.Rewrites config.finalizeRule path () w ()) : P v w := by
  induction v using induction_below generalizing path w with
  | h v ih =>
      obtain ⟨hnull, ⟨found, hform⟩, -⟩ := isWellFormed_iff_parts.1 (isWellFormed_of_finalize_eq h)
      have hrewrites : v.Rewrites (Rule.ofForms config.bareAction) path () w () := h
      cases found with
      | none =>
          have hordinary := Form.isReserved_eq_false_of_recognize? hform
          cases hcompound : v.isCompound with
          | true =>
              obtain ⟨parts, rfl, hthread⟩ :=
                (rewrites_of_not_isReserved hcompound hordinary).1 hrewrites
              refine ordinary hordinary (hthread.forall₂ fun hmem hstep => ⟨rfl, ?_⟩)
              exact ih _ hmem _ (self_mem_nodes _) hstep
          | false =>
              cases v with
              | null => exact absurd rfl hnull
              | scalar s =>
                  obtain ⟨rfl, -⟩ := rewrites_scalar_iff.1 hrewrites
                  exact scalar s
              | _ => simp [isCompound] at hcompound
      | some form =>
          cases form with
          | reference key =>
              obtain rfl := (Prod.mk.inj ((rewrites_target_iff hform rfl).1 hrewrites)).1
              exact target hform rfl
          | attributeOf key attr =>
              obtain rfl := (Prod.mk.inj ((rewrites_target_iff hform rfl).1 hrewrites)).1
              exact target hform rfl
          | substitution text map =>
              obtain rfl := Form.recognize?_eq_substitution_iff.1 hform
              cases map with
              | none =>
                  obtain ⟨done, _, -, hdone⟩ := (rewrites_template_iff rfl).1 hrewrites
                  obtain rfl := (Prod.mk.inj hdone).1
                  exact pattern text
              | some entries =>
                  obtain ⟨first, second, _, _, hfirst, hsecond, hrule⟩ :=
                    rewrites_body_iff.1 hrewrites
                  obtain ⟨rfl, -⟩ := rewrites_scalar_iff.1 hfirst
                  obtain ⟨done, rfl⟩ := exists_map_of_rewrites config.keepsMaps_bareAction hsecond
                  have hdone := (Rule.ofForms_form (Form.recognize?_template text (some done))
                    config.bareAction path ()).symm.trans hrule
                  obtain rfl := (Prod.mk.inj (Except.ok.inj hdone)).1
                  -- The argument map stands two levels below.
                  have hmap : Value.map entries ∈
                      (Value.list [.string text, .map entries]).nodes :=
                    mem_nodes_of_mem_children (List.mem_cons_of_mem _ List.mem_cons_self)
                      (self_mem_nodes _)
                  exact arguments hsecond (ih _ List.mem_cons_self _ hmap hsecond)

/-- A map keeps its keys. -/
theorem keys_of_finalize {entries done : Fields Value}
    (h : (Value.map entries).Rewrites config.finalizeRule path () (.map done) ()) :
    Fields.keys done = Fields.keys entries := by
  refine finalize_induction (P := fun v w => ∀ entries done, v = .map entries → w = .map done →
    Fields.keys done = Fields.keys entries) ?scalar ?ordinary ?target ?pattern ?arguments h _ _
    rfl rfl
  case scalar => simp
  case ordinary =>
    rintro _ parts - hparts entries done rfl hdone
    obtain rfl : parts = done := by simpa [withChildren] using hdone
    exact (hparts.map_eq_map fun hstep => hstep.1.symm).symm
  case target =>
    rintro v form key hform - entries done rfl hdone
    obtain ⟨key, body, after, hentries, hafter⟩ := config.exists_key_bareForm hform
    obtain rfl := map.inj hentries
    obtain rfl := map.inj (hdone.symm.trans hafter)
    rfl
  case pattern =>
    rintro text entries done hentries hdone
    rw [Config.bareForm_template] at hdone
    obtain rfl := map.inj hentries
    obtain rfl := map.inj hdone
    rfl
  case arguments =>
    rintro text _ _ _ - - entries done hentries hdone
    rw [Config.bareForm_template] at hdone
    obtain rfl := map.inj hentries
    obtain rfl := map.inj hdone
    rfl

end Value

end StackLinker
