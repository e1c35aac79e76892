import StackLinker.Proofs.Dependency.Reducing
import StackLinker.Proofs.Substitution.Requests

/-!
# Requests that a pass leaves behind

What a value asks for after a pass over it, it asked for before, at the same place, and the pass has
noted it; or it asks on behalf of a free entity whose reference came there (`inherits_of_rewrites`).
Exempt names are not counted.

The second case is what makes a later pass blame an entity for what another one asks for.
-/

namespace StackLinker

namespace Surroundings

open Value

variable {around : Surroundings} {splicing : Splicing} {source : String} {path place : Path}
  {v w x : Value} {outcome later : Outcome} {placeholder : Placeholder} {pattern text : String}

/-- A value asks for the value of a free entity, which in turn asks for something. -/
def Imports (around : Surroundings) (v : Value) (placeholder : Placeholder) : Prop :=
  ∃ key target outside inside, v.Requests outside ⟨key, none⟩ ∧ around.meaning key = .free target ∧
    target.reference.Requests inside placeholder

/-- How a value comes to a request that a pass leaves behind: it was there before, and the pass did
not end clean, or it was imported. -/
def Inherits (around : Surroundings) (v : Value) (place : Path) (placeholder : Placeholder)
    (later : Outcome) : Prop :=
  (v.Requests place placeholder ∧ ¬ later.IsClean) ∨ around.Imports v placeholder

/-- What a part inherits, the whole inherits at the place of the part. -/
theorem Inherits.of_part {front : Path} {between : Outcome}
    (h : around.Inherits x place placeholder between)
    (hpart : ∀ place placeholder, x.Requests place placeholder →
      v.Requests (front ++ place) placeholder) (hgrows : between.GrowsTo around later) :
    around.Inherits v (front ++ place) placeholder later := by
  rcases h with ⟨hrequest, hnoted⟩ | ⟨key, target, outside, inside, hasks, hfree, hrequest⟩
  · exact Or.inl ⟨hpart _ _ hrequest, fun hclean => hnoted (hgrows.isClean hclean)⟩
  · exact Or.inr ⟨key, target, _, inside, hpart _ _ hasks, hfree, hrequest⟩

/-! ## References and attributes -/

private theorem inherits_target (hcalm : around.Calm splicing) {form : Form} {next : Placeholder}
    (hform : Form.recognize? v = .ok (some form)) (hnext : form.placeholder? = some next)
    (h : around.settle source path v form outcome = (w, later))
    (hrequest : w.Requests place placeholder)
    (hexempt : around.config.isExempt placeholder.name = false) :
    around.Inherits v place placeholder later := by
  rw [settle_target_eq hnext, Prod.mk.injEq] at h
  obtain ⟨rfl, rfl⟩ := h
  cases hgrant : around.grant? next with
  | none =>
      rw [hgrant, Option.getD_none] at hrequest
      obtain ⟨rfl, rfl⟩ := (requests_target_iff hform hnext).1 hrequest
      refine Or.inl ⟨hrequest, fun hclean => ?_⟩
      exact absurd ((isExempt_of_isClean_note hgrant hclean).symm.trans hexempt) (by simp)
  | some granted =>
      rw [hgrant, Option.getD_some] at hrequest
      obtain ⟨target, hfree, ⟨hattr, rfl⟩ | ⟨attr, hattr, rfl⟩⟩ := grant?_eq_some hgrant
      · obtain ⟨name, attr⟩ := next
        obtain rfl : attr = none := hattr
        exact Or.inr ⟨name, target, [], place, (requests_target_iff hform hnext).2 ⟨rfl, rfl⟩,
          hfree, hrequest⟩
      · -- The name of a resource is exempt.
        obtain ⟨-, rfl⟩ := (requests_target_iff (Form.recognize?_getAtt _ _) rfl).1 hrequest
        exact absurd ((Config.isExempt_resourceName hcalm.mark target).symm.trans hexempt) (by simp)

/-! ## Templates -/

/-- Where the arguments of a filling come from: they were there from the start, or they are
references of free entities that the pattern asks for. -/
private structure Draws (around : Surroundings) (pattern : String) (start filling : Filling) :
    Prop where
  keys : start.arguments.keys ⊆ filling.arguments.keys
  arguments : ∀ argument ∈ filling.arguments, argument ∈ start.arguments ∨ ∃ key target,
    Placeholder.mk key none ∈ Pattern.placeholders pattern ∧ key ∉ start.arguments.keys ∧
      around.meaning key = .free target ∧ argument.2 = target.reference

private theorem draws_answer {start filling : Filling} (h : Draws around pattern start filling)
    (hmem : placeholder ∈ Pattern.placeholders pattern) :
    Draws around pattern start (around.answer source path placeholder filling).2 := by
  have hkeys := (growsTo_answer around source path placeholder filling).keys_subset
  refine ⟨List.Subset.trans h.keys hkeys, ?_⟩
  by_cases hown : placeholder.name ∈ filling.arguments.keys
  · rw [answer_of_own hown]
    exact h.arguments
  · cases hgrant : around.grant? placeholder with
    | none =>
        rw [answer_of_denied hown hgrant]
        exact h.arguments
    | some granted =>
        rw [answer_of_grant hown hgrant]
        cases hinserted : granted.inserted? with
        | some text =>
            rw [splice_of_inserted? hinserted]
            exact h.arguments
        | none =>
            -- The value becomes an argument, so it is not the attribute of a resource.
            obtain ⟨number, -, hsplice⟩ := splice_of_not_inserted hinserted filling
            rw [hsplice]
            intro argument hargument
            rcases List.mem_append.1 hargument with hold | hnew
            · exact h.arguments argument hold
            · obtain rfl := List.mem_singleton.1 hnew
              obtain ⟨target, hfree, ⟨hattr, rfl⟩ | ⟨attr, -, rfl⟩⟩ := grant?_eq_some hgrant
              · obtain ⟨name, attr⟩ := placeholder
                obtain rfl : attr = none := hattr
                exact Or.inr ⟨name, target, hmem, fun hdeclared => hown (h.keys hdeclared), hfree,
                  rfl⟩
              · rw [inserted?_of_placeholder (Form.recognize?_getAtt _ _) rfl] at hinserted
                simp at hinserted

private theorem draws_fill (pattern : String) (start : Filling) :
    Draws around pattern start (Pattern.fill (around.answer source path) pattern start).2 :=
  Pattern.fillPieces_invariant
    (fun _ _ _ hmem hread hdraws => draws_answer hdraws (Pattern.mem_placeholders hmem hread))
    ⟨List.Subset.refl _, fun _ => Or.inl⟩

section Template

variable {arguments : Option (Fields Value)} {done : Fields Value} {filling : Filling}

/-- A part of an argument is a part of the template. -/
private theorem requests_of_argument (hordinary : Fields.isReserved (arguments.getD []) = false)
    {key : String} (hmem : (key, x) ∈ arguments.getD []) (place : Path) (placeholder : Placeholder)
    (h : x.Requests place placeholder) :
    (template pattern arguments).Requests ([Form.subKey, "1", key] ++ place) placeholder :=
  (requests_template_iff hordinary).2 (Or.inr ⟨(key, x), hmem, place, rfl, h⟩)

private theorem inherits_pattern (hordinary : Fields.isReserved (arguments.getD []) = false)
    (hkeys : Fields.keys done = Fields.keys (arguments.getD []))
    (hfills : Fills around splicing pattern text (.start (some done) outcome) filling)
    (hread : placeholder ∈ Pattern.placeholders text)
    (hown : placeholder.name ∉ filling.arguments.keys)
    (hexempt : around.config.isExempt placeholder.name = false) :
    around.Inherits (template pattern arguments) [] placeholder filling.outcome := by
  rcases hfills.reads placeholder hread hown hexempt with ⟨hold, hnoted⟩ |
    ⟨next, hnext, hfresh, ⟨target, form, hfree, hattr, hform, hforward⟩, -⟩
  · refine Or.inl ⟨(requests_template_iff hordinary).2 (Or.inl ⟨rfl, hold, fun hdeclared => ?_⟩),
      hnoted⟩
    exact hown (hfills.grows.keys_subset (hkeys ▸ hdeclared))
  · obtain ⟨name, attr⟩ := next
    obtain rfl : attr = none := hattr
    have hdeclared : name ∉ Fields.keys (arguments.getD []) := hkeys ▸ hfresh
    exact Or.inr ⟨name, target, [], [],
      (requests_template_iff hordinary).2 (Or.inl ⟨rfl, hnext, hdeclared⟩), hfree,
      (requests_target_iff hform hforward).2 ⟨rfl, rfl⟩⟩

/-- A template inherits what its arguments inherit, and imports what added arguments ask for. -/
private theorem inherits_argument (hordinary : Fields.isReserved (arguments.getD []) = false)
    (hkeys : Fields.keys done = Fields.keys (arguments.getD []))
    (hdraws : Draws around pattern (.start (some done) outcome) filling)
    (hdone : ∀ argument ∈ done, argument.2.Requests place placeholder →
      around.Inherits (template pattern arguments) ([Form.subKey, "1", argument.1] ++ place)
        placeholder filling.outcome)
    {argument : String × Value} (hmem : argument ∈ filling.arguments)
    (hrequest : argument.2.Requests place placeholder) :
    around.Inherits (template pattern arguments) ([Form.subKey, "1", argument.1] ++ place)
      placeholder filling.outcome := by
  rcases hdraws.arguments argument hmem with hold | ⟨key, target, hasks, hfresh, hfree, hvalue⟩
  · exact hdone argument hold hrequest
  · have hdeclared : key ∉ Fields.keys (arguments.getD []) := hkeys ▸ hfresh
    exact Or.inr ⟨key, target, [], place,
      (requests_template_iff hordinary).2 (Or.inl ⟨rfl, hasks, hdeclared⟩), hfree,
      hvalue ▸ hrequest⟩

/-- What a substitution becomes is a plain text, or it has the filled pattern and its arguments. -/
private theorem string_or_template_of_fill
    (hdone : (arguments.map fun _ => done).getD [] = done)
    (hgrows : (Filling.start (some done) outcome).GrowsTo around filling)
    (hfill : Pattern.fill (around.answer source path) pattern
      (.start (arguments.map fun _ => done) outcome) = (text, filling))
    (hresult : (filling.arguments = [] ∧ Pattern.hasHoles text = false ∧ w = .string text) ∨
      (¬ (filling.arguments = [] ∧ Pattern.hasHoles text = false) ∧
        w = .sub text filling.arguments) ∨
      (filling.changed = false ∧ w = template pattern (arguments.map fun _ => done))) :
    w = .string text ∨ ∃ final, w = template text final ∧ final.getD [] = filling.arguments := by
  rcases hresult with ⟨-, -, hw⟩ | ⟨-, hw⟩ | ⟨hchanged, hw⟩
  · exact Or.inl hw
  · exact Or.inr ⟨_, hw.trans (sub_eq_template _ _), getD_ifEmpty _⟩
  · rw [eq_of_fill_of_unchanged hfill hchanged]
    exact Or.inr ⟨_, hw, hdone.trans (hgrows.unchanged hchanged).symm⟩

private theorem inherits_template (hcalm : around.Calm splicing)
    (hjoin : Pattern.isSpaced (Pattern.pieces pattern) = true ∨ splicing.solid)
    (hasks : Asks around splicing pattern (arguments.getD []))
    (hordinary : Fields.isReserved (arguments.getD []) = false)
    (hparts : ∀ part ∈ arguments.getD [], ∀ {path outcome w later place},
      part.2.Rewrites (around.rule source) path outcome w later → w.Requests place placeholder →
        around.Inherits part.2 place placeholder later)
    (h : (template pattern arguments).Rewrites (around.rule source) path outcome w later)
    (hrequest : w.Requests place placeholder)
    (hexempt : around.config.isExempt placeholder.name = false) :
    around.Inherits (template pattern arguments) place placeholder later := by
  obtain ⟨done, between, hthread, haction⟩ := (rewrites_template_iff hordinary).1 h
  have hkeys : Fields.keys done = Fields.keys (arguments.getD []) := hthread.keys_eq
  have hdone := getD_map_of_keys_eq hkeys
  have hstart :
      Filling.start (arguments.map fun _ => done) between = .start (some done) between := by
    simp only [Filling.start, hdone, Option.getD_some]
  obtain ⟨text, filling, hfill, hnotes, hresult⟩ := substitution_cases around source path
    (template pattern (arguments.map fun _ => done)) pattern (arguments.map fun _ => done) between
  simp only [settle] at haction
  rw [haction] at hnotes hresult
  obtain rfl : later = filling.outcome := hnotes
  have hfills : Fills around splicing pattern text (.start (some done) between) filling :=
    fills hcalm hjoin (fun name hname hown => hasks name hname (hkeys ▸ hown)) (hstart ▸ hfill)
  have hdraws := @draws_fill around source path pattern (.start (some done) between)
  rw [← hstart, hfill, hstart] at hdraws
  rcases string_or_template_of_fill hdone hfills.grows hfill hresult with rfl | ⟨final, rfl, hfinal⟩
  · exact absurd hrequest (not_requests_scalar _)
  · obtain ⟨added, hadded, hall⟩ := hfills.grows.arguments
    have hordinary' : Fields.isReserved (final.getD []) = false := by
      rw [hfinal, hadded]
      exact isReserved_of_done hthread hordinary hall
    rcases (requests_template_iff hordinary').1 hrequest with
      ⟨rfl, hread, hown⟩ | ⟨argument, hargument, inner, rfl, hinner⟩
    · exact inherits_pattern hordinary hkeys hfills hread (hfinal ▸ hown) hexempt
    · refine inherits_argument hordinary hkeys hdraws ?_ (hfinal ▸ hargument) hinner
      intro part hpart hrequest
      obtain ⟨x, before, after, hx, hstep, -, hafter⟩ :=
        hthread.exists_of_mem_right (fun _ hstep => growsTo_rewrites hstep) hpart
      refine (hparts (part.1, x) hx hstep hrequest).of_part (requests_of_argument hordinary hx) ?_
      exact trans_of (Outcome.GrowsTo around) hafter hfills.grows.outcome

end Template

/-- What a value asks for after a pass was asked for at the same place before, or was imported. -/
theorem inherits_of_rewrites (hcalm : around.Calm splicing)
    (hv : v.IsTame around.config splicing)
    (h : v.Rewrites (around.rule source) path outcome w later)
    (hrequest : w.Requests place placeholder)
    (hexempt : around.config.isExempt placeholder.name = false) :
    around.Inherits v place placeholder later := by
  induction hv generalizing path outcome w later place with
  | scalar s =>
      obtain ⟨rfl, -⟩ := rewrites_scalar_iff.1 h
      exact absurd hrequest (not_requests_scalar s)
  | @ordinary v hv hordinary _ ih =>
      obtain ⟨parts, rfl, hthread⟩ := (rewrites_of_not_isReserved hv hordinary).1 h
      have hordinary' : (v.withChildren parts).isReserved = false := by
        rw [isReserved_withChildren hthread.keys_eq, hordinary]
      obtain ⟨segment, rest, y, rfl, hy, hinner⟩ :=
        (requests_iff_of_not_isReserved hordinary').1 hrequest
      rw [children_withChildren hthread.keys_eq] at hy
      obtain ⟨x, before, after, hx, hstep, -, hafter⟩ :=
        hthread.exists_of_mem_right (fun _ hstep => growsTo_rewrites hstep) hy
      have hpart : ∀ place placeholder, x.Requests place placeholder →
          v.Requests ([segment] ++ place) placeholder :=
        fun _ _ hpart => requests_cons_iff.2 ⟨x, hx, hpart⟩
      exact (ih (segment, x) hx hstep hinner).of_part hpart hafter
  | target hform hnext =>
      exact inherits_target hcalm hform hnext
        ((rewrites_target_iff hform (Form.placeholder?_eq_some hnext)).1 h) hrequest hexempt
  | template hjoin hnames hordinary _ ih =>
      have hasks := fun name hname hown => hnames name (Form.mem_uses_substitution.2 ⟨hname, hown⟩)
      exact inherits_template hcalm hjoin hasks hordinary
        (fun part hpart {_ _ _ _ _} hstep hrequest => ih part hpart hstep hrequest) h hrequest
        hexempt

end Surroundings

end StackLinker
