import StackLinker.Proofs.Substitution.Capture
import StackLinker.Proofs.Substitution.Yielding

/-!
# Grants and notes

Whatever asks for an entity, a reference, an attribute or a placeholder, is treated alike: an
argument of the substitution binds it, or the entity grants something, or it stays and is noted
(`settle_target_eq`, `answer_eq`).  The three cases for a placeholder have a lemma each.

Values that no pass changes and in which no pass notes anything are final (`Value.IsFinal`), and
pieces of a pattern of which the same holds are inert (`Pattern.IsInert`).
-/

namespace StackLinker

namespace Surroundings

variable {around : Surroundings} {source : String} {path : Path} {placeholder : Placeholder}
  {filling : Filling} {notes : Outcome} {node w : Value} {form : Form} {pieces more : List Piece}

/-- The notes after a pass has met something that asks for an entity. -/
def note (around : Surroundings) (source : String) (path : Path) (placeholder : Placeholder)
    (notes : Outcome) : Outcome :=
  match around.meaning placeholder.name with
  | .free target =>
    match placeholder.attr with
    | none => notes
    | some attr =>
      match around.checkAttribute source target attr path with
      | .ok () => notes
      | .error e => notes.refuse e
  | other => notes.leave other placeholder.name path

/-- What is granted is not noted. -/
theorem note_of_grant (h : around.grant? placeholder = some w) :
    around.note source path placeholder notes = notes := by
  unfold grant? at h
  unfold note
  cases hmeaning : around.meaning placeholder.name with
  | free target =>
      rw [hmeaning] at h
      cases hattr : placeholder.attr with
      | none => rfl
      | some attr =>
          simp only [hattr, Option.ite_none_right_eq_some] at h
          simp only [checkAttribute_eq_ok_iff.2 h.1]
  | _ => simp [hmeaning] at h

/-- Exempt names are not noted. -/
theorem note_of_isExempt (h : around.config.isExempt placeholder.name = true) :
    around.note source path placeholder notes = notes := by
  unfold note
  rw [meaning_eq_exempt_iff.2 h]
  rfl

/-- A name that is open is noted. -/
theorem mem_unresolved_note (hopen : (around.meaning placeholder.name).isOpen = true)
    (source : String) (path : Path) (notes : Outcome) :
    placeholder.name ∈ (around.note source path placeholder notes).unresolved := by
  have hleave : around.note source path placeholder notes =
      notes.leave (around.meaning placeholder.name) placeholder.name path := by
    unfold note
    cases hmeaning : around.meaning placeholder.name with
    | free target => simp [hmeaning, Meaning.isOpen] at hopen
    | _ => rfl
  rw [hleave]
  exact Outcome.mem_unresolved_leave.2 (Or.inr ⟨hopen, rfl⟩)

/-- Where nothing is granted and nothing is noted, the name is exempt. -/
theorem isExempt_of_isClean_note (hgrant : around.grant? placeholder = none)
    (h : (around.note source path placeholder notes).IsClean) :
    around.config.isExempt placeholder.name = true := by
  cases hmeaning : around.meaning placeholder.name with
  | exempt => exact meaning_eq_exempt_iff.1 hmeaning
  | bound | missing =>
      have hnoted := mem_unresolved_note (by rw [hmeaning]; rfl) source path notes
      rw [h.1] at hnoted
      simp at hnoted
  | free target =>
      unfold note at h
      simp only [hmeaning] at h
      unfold grant? at hgrant
      cases hattr : placeholder.attr with
      | none => simp [hmeaning, hattr] at hgrant
      | some attr =>
          simp only [hattr] at h
          cases hcheck : around.checkAttribute source target attr path with
          | ok => simp [hmeaning, hattr, checkAttribute_eq_ok_iff.1 hcheck] at hgrant
          | error e =>
              rw [hcheck] at h
              exact absurd h (Outcome.not_isClean_refuse _ _)

/-- What asks for an entity becomes what the entity grants, or it stays and is noted. -/
theorem settle_target_eq (hplaceholder : form.placeholder? = some placeholder) :
    around.settle source path node form notes =
      ((around.grant? placeholder).getD node, around.note source path placeholder notes) := by
  refine Prod.ext (settle_target_fst hplaceholder) ?_
  cases form with
  | reference key =>
      obtain rfl := Option.some.inj hplaceholder
      simp only [settle, reference, note]
      cases around.meaning key <;> rfl
  | attributeOf key attr =>
      obtain rfl := Option.some.inj hplaceholder
      simp only [settle, attributeOf, note]
      cases around.meaning key with
      | free target =>
          simp only
          cases around.checkAttribute source target attr path <;> rfl
      | _ => rfl
  | substitution => simp [Form.placeholder?] at hplaceholder

/-! ## Placeholders -/

/-- A placeholder is bound by an argument, or what is granted is put in its place, or it stays and
is noted. -/
theorem answer_eq (around : Surroundings) (source : String) (path : Path)
    (placeholder : Placeholder) (filling : Filling) :
    around.answer source path placeholder filling =
      if placeholder.name ∈ filling.arguments.keys then (none, filling)
      else
        match around.grant? placeholder with
        | some granted => (some (around.splice granted filling).1,
            { (around.splice granted filling).2 with changed := true })
        | none => (none,
            { filling with outcome := around.note source path placeholder filling.outcome }) := by
  by_cases hown : placeholder.name ∈ filling.arguments.keys
  · rw [answer, if_pos (Fields.contains_iff_mem_keys.2 hown), if_pos hown]
  · rw [answer, if_neg (mt Fields.contains_iff_mem_keys.1 hown), if_neg hown]
    unfold grant? note
    cases around.meaning placeholder.name with
    | free target =>
        cases placeholder.attr with
        | none => rfl
        | some attr =>
            cases hcheck : around.checkAttribute source target attr path with
            | ok =>
                have hwritten : (Value.getAtt (target.resourceName around.config) attr).inserted? =
                    some (Placeholder.mk (target.resourceName around.config) (some attr)).text :=
                  Value.inserted?_of_placeholder (Form.recognize?_getAtt _ _) rfl
                simp only [hcheck, checkAttribute_eq_ok_iff.1 hcheck, if_true,
                  splice_of_inserted? hwritten]
            | error e =>
                have hrefused : target.offers around.catalog attr = false := by
                  rw [← Bool.not_eq_true, ← @checkAttribute_eq_ok_iff around source path, hcheck]
                  simp
                simp only [hcheck, hrefused, Bool.false_eq_true, if_false]
    | _ => rfl

theorem answer_of_own (h : placeholder.name ∈ filling.arguments.keys) :
    around.answer source path placeholder filling = (none, filling) := by
  rw [answer_eq, if_pos h]

theorem answer_of_grant (hown : placeholder.name ∉ filling.arguments.keys)
    (hgrant : around.grant? placeholder = some w) :
    around.answer source path placeholder filling =
      (some (around.splice w filling).1,
        { (around.splice w filling).2 with changed := true }) := by
  rw [answer_eq, if_neg hown, hgrant]

theorem answer_of_denied (hown : placeholder.name ∉ filling.arguments.keys)
    (hgrant : around.grant? placeholder = none) :
    around.answer source path placeholder filling = (none,
      { filling with outcome := around.note source path placeholder filling.outcome }) := by
  rw [answer_eq, if_neg hown, hgrant]

/-- What a substitution becomes, and what is noted in it. -/
theorem substitution_eq {pattern text : String} {arguments : Option (Fields Value)}
    (h : Pattern.fill (around.answer source path) pattern (.start arguments notes) =
      (text, filling)) :
    around.substitution source path node pattern arguments notes =
      (filling.result node text, filling.outcome) := by
  refine Prod.ext ?_ ?_
  · rw [substitution_fst, h]
  · obtain ⟨text', filling', hfill, hnotes, -⟩ :=
      substitution_cases around source path node pattern arguments notes
    rw [h] at hfill
    rw [hnotes, (Prod.mk.inj hfill).2]

end Surroundings

/-! ## Inert pieces -/

namespace Pattern

/-- Whether no pass finds anything to do in pieces, given the names of the arguments. -/
def IsInert (config : Config) (keys : List String) (pieces : List Piece) : Prop :=
  ∀ inner placeholder, .hole inner ∈ pieces → Placeholder.ofHole? inner = some placeholder →
    placeholder.name ∈ keys ∨ config.isExempt placeholder.name = true

variable {config : Config} {keys : List String}

theorem isInert_of_not_hasHoles {text : String} (h : hasHoles text = false) :
    IsInert config keys (pieces text) := by
  intro inner placeholder hmem
  rw [hasHoles, List.any_eq_false] at h
  exact absurd rfl (h _ hmem)

/-- A written placeholder is inert if an argument or an exempt name is read in it. -/
theorem isInert_text {placeholder : Placeholder} (hbrace : '}' ∉ inner placeholder)
    (h : ∀ read, Placeholder.ofHole? (inner placeholder) = some read →
      read.name ∈ keys ∨ config.isExempt read.name = true) :
    IsInert config keys (pieces placeholder.text) := by
  intro other read hmem hread
  rw [pieces_text hbrace, List.mem_singleton] at hmem
  rw [Piece.hole.inj hmem] at hread
  exact h read hread

end Pattern

namespace Surroundings

variable {around : Surroundings} {source : String} {path : Path} {filling : Filling}
  {pieces : List Piece}

/-- Filling inert pieces writes them as they are and does nothing else. -/
theorem fillPieces_of_isInert
    (h : Pattern.IsInert around.config filling.arguments.keys pieces) :
    Pattern.fillPieces (around.answer source path) pieces filling =
      (pieces.flatMap Piece.render, filling) := by
  induction pieces with
  | nil => rfl
  | cons piece rest ih =>
      have hrest := ih fun inner placeholder hmem => h inner placeholder (List.mem_cons_of_mem _ hmem)
      cases piece with
      | char c => simp [Pattern.fillPieces, hrest, Piece.render]
      | hole inner =>
          cases hread : Placeholder.ofHole? inner with
          | none => simp [Pattern.fillPieces, hread, hrest]
          | some placeholder =>
              have hanswer : around.answer source path placeholder filling = (none, filling) := by
                by_cases hown : placeholder.name ∈ filling.arguments.keys
                · exact answer_of_own hown
                · have hexempt := (h inner placeholder List.mem_cons_self hread).resolve_left hown
                  have hdenied : around.grant? placeholder = none := by
                    simp only [grant?, meaning_eq_exempt_iff.2 hexempt]
                  rw [answer_of_denied hown hdenied, note_of_isExempt hexempt]
              simp [Pattern.fillPieces, hread, hanswer, hrest]

end Surroundings

/-! ## Final values -/

namespace Value

variable {config : Config} {v : Value}

/-- Whether no pass changes anything in a value or notes anything in it. -/
def IsFinal (config : Config) (v : Value) : Prop :=
  ∀ around : Surroundings, around.config = config → ∀ source path notes,
    v.Rewrites (around.rule source) path notes v notes

theorem isFinal_scalar (s : Scalar) : IsFinal config (.scalar s) :=
  fun _ _ _ _ _ => rewrites_scalar_iff.2 ⟨rfl, rfl⟩

theorem thread_final {around : Surroundings} (haround : around.config = config)
    {source : String} {place : String → Path} {parts : Fields Value}
    (h : ∀ part ∈ parts, part.2.IsFinal config) (notes : Outcome) :
    Thread (fun key => Rewrites (around.rule source) (place key)) parts notes parts notes := by
  induction parts with
  | nil => exact .nil notes
  | cons part rest ih =>
      exact .cons (h part List.mem_cons_self around haround source _ notes)
        (ih fun other hother => h other (List.mem_cons_of_mem _ hother))

/-- An ordinary node is final if its parts are. -/
theorem isFinal_of_children (hv : v.isCompound = true) (hordinary : v.isReserved = false)
    (h : ∀ child ∈ v.children, child.2.IsFinal config) : v.IsFinal config := by
  intro around haround source path notes
  exact (rewrites_of_not_isReserved hv hordinary).2
    ⟨v.children, (withChildren_children v).symm, thread_final haround h notes⟩

/-- Scalars and lists of scalars are final. -/
theorem isFinal_of_classify {name : String} (h : v.classify name = .ok .free) :
    v.IsFinal config := by
  rcases classify_eq_free_iff.1 h with ⟨s, rfl⟩ | ⟨items, rfl, hscalars⟩
  · exact isFinal_scalar s
  · refine isFinal_of_children rfl rfl (forall_children_list.2 fun item hitem => ?_)
    obtain ⟨s, rfl⟩ := hscalars item hitem
    exact isFinal_scalar s

/-- What asks for an entity is final if and only if the name is exempt. -/
theorem isFinal_target_iff {form : Form} {placeholder : Placeholder}
    (hform : Form.recognize? v = .ok (some form))
    (hplaceholder : form.placeholder? = some placeholder) :
    v.IsFinal config ↔ config.isExempt placeholder.name = true := by
  have htarget := Form.placeholder?_eq_some hplaceholder
  constructor
  · -- Nothing is granted where nothing is free, and only exempt names are not noted there.
    intro h
    let bare : Surroundings := ⟨config, .permissive, [], []⟩
    have hgrant : bare.grant? placeholder = none := by
      unfold Surroundings.grant?
      split
      · rename_i target hmeaning
        simpa [bare] using Surroundings.mem_free_of_meaning hmeaning
      · rfl
    have hrewrites := (rewrites_target_iff hform htarget).1 (h bare rfl "" [] {})
    rw [Surroundings.settle_target_eq hplaceholder] at hrewrites
    refine @Surroundings.isExempt_of_isClean_note bare "" [] placeholder {} hgrant ?_
    rw [(Prod.mk.inj hrewrites).2]
    exact ⟨rfl, rfl⟩
  · intro hexempt around haround source path notes
    subst haround
    refine (rewrites_target_iff hform htarget).2 ?_
    have hdenied : around.grant? placeholder = none := by
      simp only [Surroundings.grant?, Surroundings.meaning_eq_exempt_iff.2 hexempt]
    rw [Surroundings.settle_target_eq hplaceholder, hdenied,
      Surroundings.note_of_isExempt hexempt, Option.getD_none]

/-- A substitution is final if its arguments are, its pattern is inert, and it is no plain text. -/
theorem isFinal_template {pattern : String} {arguments : Option (Fields Value)}
    (hordinary : Fields.isReserved (arguments.getD []) = false)
    (harguments : ∀ argument ∈ arguments.getD [], argument.2.IsFinal config)
    (hpattern : Pattern.IsInert config (Fields.keys (arguments.getD [])) (Pattern.pieces pattern))
    (hplain : ¬ (arguments.getD [] = [] ∧ Pattern.hasHoles pattern = false)) :
    (template pattern arguments).IsFinal config := by
  intro around haround source path notes
  subst haround
  have hsame : (arguments.map fun _ => arguments.getD []) = arguments := by cases arguments <;> rfl
  refine (rewrites_template_iff hordinary).2
    ⟨arguments.getD [], notes, thread_final rfl harguments notes, ?_⟩
  have hfill : Pattern.fill (around.answer source path) pattern (.start arguments notes) =
      (pattern, .start arguments notes) := by
    unfold Pattern.fill
    rw [Surroundings.fillPieces_of_isInert hpattern]
    exact Prod.ext (Pattern.render_pieces pattern) rfl
  rw [hsame, Surroundings.settle, Surroundings.substitution_eq hfill]
  have hnot : ((arguments.getD []).isEmpty && !Pattern.hasHoles pattern) = false := by
    rw [← Bool.not_eq_true, Bool.and_eq_true, List.isEmpty_iff, Bool.not_eq_true']
    exact hplain
  simp [Surroundings.Filling.result, Surroundings.Filling.start, hnot]

end Value

end StackLinker
