import StackLinker.Proofs.Substitution.Repeating
import StackLinker.Proofs.Substitution.Requests

/-!
# Requests that outlast a pass

Something that a value asks for, and that the surroundings deny, is noted by a pass
(`noted_of_rewrites`), and the value still asks for it at the same place afterwards
(`requests_of_rewrites`).  The one exception are names of added arguments, which a pass may bind.

So where a pass has noted nothing, everything that the value asked for was granted, and conversely
(`satisfies_of_isClean`, `isClean_of_satisfies`).
-/

namespace StackLinker

namespace Surroundings

open Value

variable {around earlier later : Surroundings} {config : Config} {splicing : Splicing}
  {source : String} {path place : Path} {v w : Value} {before after : Outcome}
  {placeholder : Placeholder} {hole : List Char} {pattern text : String} {start filling : Filling}

/-- Something is asked for that is neither exempt nor granted. -/
structure IsDenied (around : Surroundings) (placeholder : Placeholder) : Prop where
  exempt : around.config.isExempt placeholder.name = false
  grant : around.grant? placeholder = none

/-- Nothing that a value asks for is denied. -/
def Satisfies (around : Surroundings) (v : Value) : Prop :=
  ∀ placeholder ∈ v.requested, ¬ around.IsDenied placeholder

/-- What is granted belongs to a free entity, which offers the attribute that is asked for. -/
theorem isSome_grant?_iff : (around.grant? placeholder).isSome = true ↔
    ∃ target, around.meaning placeholder.name = .free target ∧
      ∀ attr ∈ placeholder.attr, target.offers around.catalog attr = true := by
  unfold grant?
  cases around.meaning placeholder.name with
  | free target =>
      cases placeholder.attr with
      | none => simp
      | some attr => cases hoffers : target.offers around.catalog attr <;> simp [hoffers]
  | _ => simp

/-- What is denied was denied before. -/
theorem Precedes.isDenied (h : Precedes earlier later) (hdenied : later.IsDenied placeholder) :
    earlier.IsDenied placeholder := by
  refine ⟨h.config ▸ hdenied.exempt, Option.eq_none_iff_forall_ne_some.2 fun granted hgrant => ?_⟩
  simpa [hdenied.grant] using h.grant? hgrant

theorem Precedes.satisfies (h : Precedes earlier later) (hsatisfies : earlier.Satisfies v) :
    later.Satisfies v := fun placeholder hrequested hdenied =>
  hsatisfies placeholder hrequested (h.isDenied hdenied)

/-- What is refused is denied. -/
theorem Refuses.isDenied {d : Diagnostic} (h : around.Refuses source path placeholder d) :
    around.IsDenied placeholder := by
  obtain ⟨target, attr, hfree, hattr, hoffers⟩ := h.denied
  exact ⟨(meaning_eq_free_iff.1 hfree).1, by simp [grant?, hfree, hattr, hoffers]⟩

/-- What is denied is noted. -/
theorem IsDenied.not_isClean_note (hdenied : around.IsDenied placeholder) (source : String)
    (path : Path) (notes : Outcome) :
    ¬ (around.note source path placeholder notes).IsClean := fun hclean => by
  simpa [hdenied.exempt] using isExempt_of_isClean_note hdenied.grant hclean

/-! ## Patterns -/

/-- A placeholder that is denied stays where it is, is not bound, and is noted. -/
theorem stays_of_fill (hdenied : around.IsDenied placeholder)
    (hnumber : ¬ around.config.IsSynthetic placeholder.name)
    (hhole : .hole hole ∈ Pattern.pieces pattern)
    (hread : Placeholder.ofHole? hole = some placeholder)
    (hown : placeholder.name ∉ start.arguments.keys)
    (hfill : Pattern.fill (around.answer source path) pattern start = (text, filling)) :
    .hole hole ∈ Pattern.filledPieces (around.answer source path) (Pattern.pieces pattern) start ∧
      placeholder.name ∉ filling.arguments.keys ∧ ¬ filling.outcome.IsClean := by
  have hfilling : (Pattern.fillPieces (around.answer source path) (Pattern.pieces pattern)
    start).2 = filling := congrArg Prod.snd hfill
  have hstart : start.Extends around start.arguments :=
    ⟨[], by simp, by simp, by simp [Fields.keys]⟩
  have hextends := @Filling.Extends.fillPieces _ source path _ _ hstart (Pattern.pieces pattern)
  have hfree := (hfilling ▸ hextends).notMem_keys hown hnumber
  obtain ⟨asked, -, hto, hpieces⟩ := Pattern.replacement_subset_filledPieces
    (growsTo_answer around source path) hhole hread start
  rw [hfilling] at hto
  have hunbound : placeholder.name ∉ asked.arguments.keys := fun hbound =>
    hfree (hto.keys_subset ((growsTo_answer around source path _ asked).keys_subset hbound))
  rw [answer_of_denied hunbound hdenied.grant] at hto hpieces
  refine ⟨hpieces (List.mem_singleton_self _), hfree, fun hclean => ?_⟩
  exact hdenied.not_isClean_note source path _ (hto.outcome.isClean hclean)

/-! ## Values -/

/-- What is asked for and denied is noted. -/
theorem noted_of_rewrites (hv : v.IsTame config splicing) (hdenied : around.IsDenied placeholder)
    (hnumber : ¬ around.config.IsSynthetic placeholder.name)
    (h : v.Rewrites (around.rule source) path before w after)
    (hrequest : v.Requests place placeholder) : ¬ after.IsClean := by
  induction hv generalizing path before w after place with
  | scalar s => exact absurd hrequest (not_requests_scalar s)
  | @ordinary v hv hordinary _ ih =>
      obtain ⟨parts, rfl, hthread⟩ := (rewrites_of_not_isReserved hv hordinary).1 h
      obtain ⟨segment, rest, child, rfl, hchild, hinner⟩ :=
        (requests_iff_of_not_isReserved hordinary).1 hrequest
      obtain ⟨y, n, m, -, hstep, -, hafter⟩ :=
        hthread.exists_of_mem_left (fun _ hstep => growsTo_rewrites hstep) hchild
      exact fun hclean => ih (segment, child) hchild hstep hinner (hafter.isClean hclean)
  | @target v form next hform hnext =>
      obtain ⟨rfl, rfl⟩ := (requests_target_iff hform hnext).1 hrequest
      have hsettle := (rewrites_target_iff hform (Form.placeholder?_eq_some hnext)).1 h
      rw [settle_target_eq hnext] at hsettle
      obtain ⟨-, rfl⟩ := Prod.mk.inj hsettle
      exact hdenied.not_isClean_note source path before
  | @template pattern arguments _ _ hordinary _ ih =>
      have hasks : Asks around ⟨fun _ => True, True⟩ pattern (arguments.getD []) :=
        fun _ _ _ _ => trivial
      obtain ⟨done, between, text, filling, rfl, hrefills⟩ := exists_refills hasks hordinary h
      have hkeys : Fields.keys done = Fields.keys (arguments.getD []) := hrefills.thread.keys_eq
      rcases (requests_template_iff hordinary).1 hrequest with
        ⟨-, hmem, hown⟩ | ⟨argument, hargument, rest, rfl, hinner⟩
      · obtain ⟨hole, hhole, hread⟩ := Pattern.mem_placeholders_iff.1 hmem
        exact (stays_of_fill hdenied hnumber hhole hread
          (hkeys ▸ hown : placeholder.name ∉ Fields.keys done) hrefills.fill).2.2
      · obtain ⟨y, n, m, -, hstep, -, hafter⟩ := hrefills.thread.exists_of_mem_left
          (fun _ hstep => growsTo_rewrites hstep) hargument
        have hgrows := growsTo_fill around source path pattern (.start (some done) between)
        rw [hrefills.fill] at hgrows
        exact fun hclean =>
          ih argument hargument hstep hinner (hafter.isClean (hgrows.outcome.isClean hclean))

/-- What is asked for and denied is still asked for after the pass, at its place. -/
theorem requests_of_rewrites (hcalm : around.Calm splicing) (hv : v.IsTame around.config splicing)
    (hdenied : around.IsDenied placeholder)
    (hnumber : ¬ around.config.IsSynthetic placeholder.name)
    (h : v.Rewrites (around.rule source) path before w after)
    (hrequest : v.Requests place placeholder) : w.Requests place placeholder := by
  induction hv generalizing path before w after place with
  | scalar s => exact absurd hrequest (not_requests_scalar s)
  | @ordinary v hv hordinary _ ih =>
      obtain ⟨parts, rfl, hthread⟩ := (rewrites_of_not_isReserved hv hordinary).1 h
      obtain ⟨segment, rest, child, rfl, hchild, hinner⟩ :=
        (requests_iff_of_not_isReserved hordinary).1 hrequest
      obtain ⟨y, n, m, hy, hstep, -⟩ :=
        hthread.exists_of_mem_left (fun _ hstep => growsTo_rewrites hstep) hchild
      rw [← children_withChildren hthread.keys_eq] at hy
      exact requests_cons_iff.2 ⟨y, hy, ih (segment, child) hchild hstep hinner⟩
  | @target v form next hform hnext =>
      obtain ⟨rfl, rfl⟩ := (requests_target_iff hform hnext).1 hrequest
      have hsettle := (rewrites_target_iff hform (Form.placeholder?_eq_some hnext)).1 h
      rw [settle_target_eq hnext, hdenied.grant, Option.getD_none] at hsettle
      obtain ⟨rfl, -⟩ := Prod.mk.inj hsettle
      exact hrequest
  | @template pattern arguments hjoin hnames hordinary _ ih =>
      obtain ⟨done, between, text, filling, rfl, hrefills⟩ := exists_refills
        (fun name hname hown => hnames name (Form.mem_uses_substitution.2 ⟨hname, hown⟩)) hordinary
        h
      have hkeys : Fields.keys done = Fields.keys (arguments.getD []) := hrefills.thread.keys_eq
      rcases (requests_template_iff hordinary).1 hrequest with
        ⟨rfl, hmem, hown⟩ | ⟨argument, hargument, rest, rfl, hinner⟩
      · obtain ⟨hole, hhole, hread⟩ := Pattern.mem_placeholders_iff.1 hmem
        obtain ⟨hstays, hfree, -⟩ := stays_of_fill hdenied hnumber hhole hread
          (hkeys ▸ hown : placeholder.name ∉ Fields.keys done) hrefills.fill
        rw [← pieces_fill_of_calm hcalm hjoin hrefills.asks hrefills.fill] at hstays
        -- A text with a hole in it is still a pattern.
        rcases hrefills.result with ⟨-, hholes, -⟩ | ⟨-, all, hall, rfl, -⟩
        · exact absurd rfl (List.any_eq_false.1 hholes _ hstays)
        · exact (requests_template_iff (hall ▸ hrefills.ordinary)).2
            (Or.inl ⟨rfl, Pattern.mem_placeholders hstays hread, hall ▸ hfree⟩)
      · obtain ⟨y, n, m, hy, hstep, -⟩ := hrefills.thread.exists_of_mem_left
          (fun _ hstep => growsTo_rewrites hstep) hargument
        obtain ⟨added, hadded, -⟩ := hrefills.added
        have hkept : (argument.1, y) ∈ filling.arguments := hadded ▸ List.mem_append_left _ hy
        rcases hrefills.result with ⟨hnil, -⟩ | ⟨-, all, hall, rfl, -⟩
        · simp [hnil] at hkept
        · exact (requests_template_iff (hall ▸ hrefills.ordinary)).2 (Or.inr
            ⟨(argument.1, y), hall.symm ▸ hkept, rest, rfl, ih argument hargument hstep hinner⟩)

/-- Where a pass notes nothing, everything that was asked for has been granted. -/
theorem satisfies_of_isClean (hv : v.IsTame config splicing)
    (hnumbers : ∀ placeholder ∈ v.requested, around.config.isExempt placeholder.name = false →
      ¬ around.config.IsSynthetic placeholder.name)
    (h : v.Rewrites (around.rule source) path before w after) (hclean : after.IsClean) :
    around.Satisfies v := fun placeholder hrequested hdenied => by
  obtain ⟨place, hrequest⟩ := mem_requested_iff.1 hrequested
  exact noted_of_rewrites hv hdenied (hnumbers placeholder hrequested hdenied.exempt) h hrequest
    hclean

/-- Where nothing is bound and everything that is asked for is granted, a pass notes nothing. -/
theorem isClean_of_satisfies (hv : v.IsTame config splicing) (hbound : around.bound = [])
    (hsatisfies : around.Satisfies v) (h : around.apply source v = .ok (w, after)) :
    after.IsClean := by
  have habout : after.IsAbout around source fun _ placeholder => ¬ around.IsDenied placeholder :=
    isAbout_of_apply hv h fun place placeholder hrequest =>
      hsatisfies placeholder (mem_requested_iff.2 ⟨place, hrequest⟩)
  have hnobound : after.bound = [] := List.eq_nil_iff_forall_not_mem.2 fun u hu => by
    have hknown := (growsTo_rewrites (apply_eq_ok_iff.1 h)).known u hu
    simp [hbound] at hknown
  have hmissing : after.missing = [] := List.eq_nil_iff_forall_not_mem.2 fun u hu => by
    obtain ⟨placeholder, hasked, -, hmissing⟩ := habout.missing u hu
    have hopen : (around.meaning placeholder.name).isOpen = true := by rw [hmissing]; rfl
    exact hasked ⟨(isOpen_meaning_iff.1 hopen).1, grant?_of_isOpen hopen⟩
  have hinvalid : after.invalid = [] := List.eq_nil_iff_forall_not_mem.2 fun d hd => by
    obtain ⟨path, placeholder, hasked, hrefuses⟩ := habout.invalid d hd
    exact hasked hrefuses.isDenied
  exact ⟨by simp [Outcome.unresolved, hnobound, hmissing], hinvalid⟩

end Surroundings

end StackLinker
