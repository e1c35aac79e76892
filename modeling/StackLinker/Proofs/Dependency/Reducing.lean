import StackLinker.Proofs.Substitution.Granting

/-!
# Passes that add no dependency

For resolution to come to an end, a pass over a reference may not ask for names that were not
declared.  `exists_rewrites_of_isTame` is the statement about one pass over a tame value: it reaches
its end, the new value is tame again, and what it uses was used before or is free.

New dependencies could come from text that is put into a pattern and read again by the next pass.
`read_of_answer` goes through everything that can come into the place of a placeholder; the texts
have no holes, and a written placeholder is read again up to the first dot or brace, which is
harmless if the name has none, or if it is exempt.
-/

namespace StackLinker

namespace Surroundings

open Value

/-- What is known of the free entities while no dependency is added. -/
structure Calm (around : Surroundings) (splicing : Splicing) : Prop where
  mark : around.config.preserveMarker ≠ ""
  markers : around.config.HasPlainMarkers
  names : ∀ target ∈ around.free, '.' ∉ target.fullName.toList
  tame : ∀ target ∈ around.free, target.reference.IsTame around.config splicing
  spliceable : ∀ target ∈ around.free, splicing.names target.fullName →
    target.reference.IsSpliceable around.config splicing
  uses : ∀ target ∈ around.free, ∀ name ∈ target.reference.uses around.config,
    name ∈ Entity.names around.free

/-- What a pass makes of a tame value. -/
structure Reduces (around : Surroundings) (splicing : Splicing) (v w : Value)
    (before after : Outcome) : Prop where
  tame : w.IsTame around.config splicing
  spliceable : v.IsSpliceable around.config splicing → w.IsSpliceable around.config splicing
  /-- What is still used is free, or it was used before and is noted. -/
  uses : ∀ name ∈ w.uses around.config, name ∈ Entity.names around.free ∨
    (name ∈ v.uses around.config ∧ name ∈ after.unresolved)
  /-- Only names that were used and are not free are noted. -/
  noted : ∀ name ∈ after.unresolved, name ∈ before.unresolved ∨
    (name ∈ v.uses around.config ∧ name ∉ Entity.names around.free)

variable {around : Surroundings} {splicing : Splicing} {source name : String} {path : Path}
  {v w : Value} {before after outcome later : Outcome}

theorem Calm.spliceable_of_meaning (hcalm : around.Calm splicing) {target : Entity}
    (hfree : around.meaning name = .free target)
    (hname : around.config.isExempt name = false → splicing.names name) :
    target.reference.IsSpliceable around.config splicing := by
  obtain ⟨hexempt, hfind⟩ := meaning_eq_free_iff.1 hfree
  refine hcalm.spliceable target (Entity.mem_of_find? hfind) ?_
  rw [Entity.fullName_of_find? hfind]
  exact hname hexempt

/-! ## References and attributes -/

/-- Where an attribute of an entity can be asked for, its resource name can be written. -/
theorem notMem_inner_resourceName (hmarkers : around.config.HasPlainMarkers)
    (placeholder : Placeholder) {target : Entity} {attr : String}
    (hfree : around.meaning placeholder.name = .free target)
    (hattr : placeholder.attr = some attr) (hbrace : '}' ∉ Pattern.inner placeholder) :
    '}' ∉ Pattern.inner ⟨target.resourceName around.config, some attr⟩ := by
  obtain ⟨-, hfind⟩ := meaning_eq_free_iff.1 hfree
  have hinner : Pattern.inner placeholder = placeholder.name.toList ++ '.' :: attr.toList := by
    simp only [Pattern.inner, hattr]
  rw [hinner, List.mem_append, not_or, ← Entity.fullName_of_find? hfind] at hbrace
  simp only [Pattern.inner, List.mem_append, not_or]
  exact ⟨Config.notMem_resourceName hmarkers hbrace.1, hbrace.2⟩

/-- A reference or an attribute that stays uses what it used, and it is noted unless it is free. -/
private theorem reduces_stays (path : Path) {form : Form} {placeholder : Placeholder}
    (hform : Form.recognize? v = .ok (some form))
    (hplaceholder : form.placeholder? = some placeholder) {meaning : Meaning}
    (hmeaning : around.meaning placeholder.name = meaning) :
    Reduces around splicing v v before (before.leave meaning placeholder.name path) := by
  have htarget := Form.placeholder?_eq_some hplaceholder
  subst hmeaning
  refine ⟨.target hform hplaceholder, id, ?uses, ?noted⟩
  case uses =>
    intro name hname
    obtain ⟨rfl, hexempt⟩ := (mem_uses_of_target? hform htarget).1 hname
    rcases mem_names_or_isOpen hexempt with hfree | hopen
    · exact Or.inl hfree
    · exact Or.inr ⟨hname, Outcome.mem_unresolved_leave.2 (Or.inr ⟨hopen, rfl⟩)⟩
  case noted =>
    intro name hname
    rcases Outcome.mem_unresolved_leave.1 hname with hbefore | ⟨hopen, rfl⟩
    · exact Or.inl hbefore
    · have hexempt := (isOpen_meaning_iff.1 hopen).1
      exact Or.inr ⟨(mem_uses_of_target? hform htarget).2 ⟨rfl, hexempt⟩,
        notMem_names_of_isOpen hopen⟩

private theorem reduces_target (hcalm : around.Calm splicing) {form : Form}
    {placeholder : Placeholder} (hform : Form.recognize? v = .ok (some form))
    (hplaceholder : form.placeholder? = some placeholder) :
    Reduces around splicing v (around.settle source path v form before).1 before
      (around.settle source path v form before).2 := by
  cases form with
  | reference key =>
      obtain rfl := Option.some.inj hplaceholder
      simp only [settle, reference]
      cases hmeaning : around.meaning key with
      | free target =>
          -- The value of the free entity comes here; all it uses is free.
          have hmem := mem_free_of_meaning hmeaning
          refine ⟨hcalm.tame target hmem, ?spliceable, ?uses, fun name => Or.inl⟩
          case spliceable =>
            intro hv
            exact hcalm.spliceable_of_meaning hmeaning (hv.target _ _ hform rfl).2
          case uses =>
            intro name hname
            exact Or.inl (hcalm.uses target hmem name hname)
      | _ => exact reduces_stays path hform hplaceholder hmeaning
  | attributeOf key attr =>
      obtain rfl := Option.some.inj hplaceholder
      simp only [settle, attributeOf]
      cases hmeaning : around.meaning key with
      | free target =>
          simp only
          split
          · -- The resource name is exempt, so nothing is used any more.
            have hget : Form.recognize? (.getAtt (target.resourceName around.config) attr) =
                .ok (some (.attributeOf (target.resourceName around.config) attr)) :=
              Form.recognize?_getAtt _ _
            have hexempt := Config.isExempt_resourceName hcalm.mark target
            refine ⟨.target hget rfl, ?spliceable, ?uses, fun name => Or.inl⟩
            case spliceable =>
              intro hv
              refine isSpliceable_target hget rfl ?_ fun hnot => ?_
              · exact notMem_inner_resourceName hcalm.markers ⟨key, some attr⟩ hmeaning rfl
                  (hv.target _ _ hform rfl).1
              · exact absurd (hexempt.symm.trans hnot) (by simp)
            case uses =>
              intro name hname
              have hnot := ((mem_uses_of_target? hget rfl).1 hname).2
              exact absurd (hexempt.symm.trans hnot) (by simp)
          · refine ⟨.target hform hplaceholder, id, ?_, fun name => Or.inl⟩
            intro name hname
            obtain ⟨rfl, -⟩ := (mem_uses_of_target? hform rfl).1 hname
            exact Or.inl (mem_names_of_meaning hmeaning)
      | _ => exact reduces_stays path hform hplaceholder hmeaning
  | substitution => simp [Form.placeholder?] at hplaceholder

/-! ## Patterns -/

theorem notMem_syntheticName (hmarkers : around.config.HasPlainMarkers) (number : Nat) :
    '.' ∉ (around.syntheticName number).toList ∧ '}' ∉ (around.syntheticName number).toList := by
  have hdigits : ∀ c ∈ (Nat.repr number).toList, c.isDigit = true := by
    intro c hc
    rw [Nat.toList_repr] at hc
    exact Nat.isDigit_of_mem_toDigits (by decide) (by decide) hc
  rw [syntheticName, String.toList_append]
  constructor
  · intro h
    rcases List.mem_append.1 h with h | h
    · exact hmarkers.synthetic_dot h
    · exact absurd (hdigits _ h) (by decide)
  · intro h
    rcases List.mem_append.1 h with h | h
    · exact hmarkers.synthetic_brace h
    · exact absurd (hdigits _ h) (by decide)

/-- Whether the names that a pattern asks for, apart from its arguments, are names of values that
are put into patterns. -/
def Asks (around : Surroundings) (splicing : Splicing) (pattern : String)
    (arguments : Fields Value) : Prop :=
  ∀ name ∈ Pattern.names pattern, name ∉ arguments.keys → around.config.isExempt name = false →
    splicing.names name

/-- Written placeholders that a pass puts into a pattern are read as one hole. -/
private theorem isSpaced_placeholder {placeholder : Placeholder}
    (h : '}' ∉ Pattern.inner placeholder) :
    Pattern.isSpaced (Pattern.pieces placeholder.text) = true := by
  rw [Pattern.pieces_text h]
  rfl

/-- What is put into a pattern is harmless. -/
theorem harmless_insertions (hcalm : around.Calm splicing) {pattern text : String}
    {start : Filling} (hasks : Asks around splicing pattern start.arguments)
    (h : text ∈ Pattern.insertions (around.answer source path) (Pattern.pieces pattern) start) :
    Pattern.isClosed text = true ∧ Pattern.isSpaced (Pattern.pieces text) = true ∧
      (splicing.solid → Pattern.isSolid text.toList = true) := by
  obtain ⟨hole, placeholder, asked, hhole, hplaceholder, hfrom, htext⟩ :=
    Pattern.of_mem_insertions (growsTo_answer around source path) h
  have hanswered := answered around source path placeholder asked
  rw [htext] at hanswered
  generalize (around.answer source path placeholder asked).2 = after at hanswered
  have hname : placeholder.name ∉ asked.arguments.keys →
      around.config.isExempt placeholder.name = false → splicing.names placeholder.name := by
    intro hown
    exact hasks _ (Pattern.mem_names.2 ⟨hole, placeholder, hhole, hplaceholder, rfl⟩)
      fun hdeclared => hown (hfrom.keys_subset hdeclared)
  have hwritten : ∀ next : Placeholder, '}' ∉ Pattern.inner next →
      Pattern.isClosed next.text = true ∧ Pattern.isSpaced (Pattern.pieces next.text) = true ∧
        (splicing.solid → Pattern.isSolid next.text.toList = true) := fun next hbrace =>
    ⟨Pattern.isClosed_text _, isSpaced_placeholder hbrace, fun _ => Pattern.isSolid_text _⟩
  cases hanswered with
  | text hfree hreference hown =>
      have hspliceable := hcalm.spliceable_of_meaning hfree (hname hown)
      rw [hreference] at hspliceable
      exact ⟨hspliceable.closed _ rfl, Pattern.isSpaced_of_not_hasHoles (hspliceable.holes _ rfl),
        fun hsolid => hspliceable.solid hsolid _ rfl⟩
  | forward hfree hreference hnext hown =>
      have hspliceable := hcalm.spliceable_of_meaning hfree (hname hown)
      exact hwritten _ (hspliceable.target _ _ hreference hnext).1
  | argument => exact hwritten _ (notMem_syntheticName hcalm.markers _).2
  | attributeOf hfree hattr =>
      have hbrace := Pattern.inner_of_ofHole? hplaceholder ▸ Pattern.notMem_of_hole_mem hhole
      exact hwritten _ (notMem_inner_resourceName hcalm.markers placeholder hfree hattr hbrace)

/-- A free entity that the first placeholder asks for stands for what the second one asks for, as a
reference or an attribute. -/
def Forwards (around : Surroundings) (placeholder next : Placeholder) : Prop :=
  ∃ target form, around.meaning placeholder.name = .free target ∧ placeholder.attr = none ∧
    Form.recognize? target.reference = .ok (some form) ∧ form.placeholder? = some next

/-- What is read where a placeholder stood, and is neither bound by an argument nor exempt, is the
placeholder itself, which is noted then, or what a free entity forwards. -/
private theorem read_of_answer (hcalm : around.Calm splicing) {placeholder read : Placeholder}
    {asked : Filling} {pattern : String} {hole inner : List Char}
    (hhole : .hole hole ∈ Pattern.pieces pattern)
    (hplaceholder : Placeholder.ofHole? hole = some placeholder)
    (hname : placeholder.name ∉ asked.arguments.keys →
      around.config.isExempt placeholder.name = false → splicing.names placeholder.name)
    (hpiece : .hole inner ∈
      Pattern.replacement hole (around.answer source path placeholder asked).1)
    (hread : Placeholder.ofHole? inner = some read)
    (hown : read.name ∉ (around.answer source path placeholder asked).2.arguments.keys)
    (hexempt : around.config.isExempt read.name = false) :
    (read = placeholder ∧ ¬ (around.answer source path placeholder asked).2.outcome.IsClean) ∨
      (placeholder.name ∉ asked.arguments.keys ∧ around.Forwards placeholder read ∧
        splicing.names read.name) := by
  -- A hole that stays is read as before, and a written placeholder is read as one hole.
  have hsame : .hole inner ∈ Pattern.replacement hole none → read = placeholder := by
    intro hpiece
    obtain rfl : inner = hole := by simpa [Pattern.replacement] using hpiece
    exact Option.some.inj (hread.symm.trans hplaceholder)
  have hwritten : ∀ next : Placeholder, '}' ∉ Pattern.inner next →
      .hole inner ∈ Pattern.replacement hole (some next.text) →
      Placeholder.ofHole? (Pattern.inner next) = some read := by
    intro next hbrace hpiece
    rw [Pattern.replacement, Pattern.pieces_text hbrace] at hpiece
    obtain rfl : inner = Pattern.inner next := by simpa using hpiece
    exact hread
  have hnot : ∀ next : Placeholder, Placeholder.ofHole? (Pattern.inner next) = some read →
      around.config.isExempt next.name = false := by
    intro next hnext
    rw [← Bool.not_eq_true]
    intro h
    exact absurd ((Config.isExempt_of_read hcalm.markers h hnext).symm.trans hexempt) (by simp)
  by_cases hasked : placeholder.name ∈ asked.arguments.keys
  · rw [answer_of_own hasked] at hpiece hown
    obtain rfl := hsame hpiece
    exact absurd hasked hown
  · cases hgrant : around.grant? placeholder with
    | none =>
        rw [answer_of_denied hasked hgrant] at hpiece ⊢
        obtain rfl := hsame hpiece
        refine Or.inl ⟨rfl, fun hclean => ?_⟩
        exact absurd ((isExempt_of_isClean_note hgrant hclean).symm.trans hexempt) (by simp)
    | some granted =>
        rw [answer_of_grant hasked hgrant] at hpiece hown
        obtain ⟨target, hfree, ⟨hattr, rfl⟩ | ⟨attr, hattr, rfl⟩⟩ := grant?_eq_some hgrant
        · have hspliceable := hcalm.spliceable_of_meaning hfree (hname hasked)
          cases hinserted : target.reference.inserted? with
          | none =>
              -- The name of the added argument is bound.
              obtain ⟨number, -, hsplice⟩ := splice_of_not_inserted hinserted asked
              rw [hsplice] at hpiece hown
              obtain ⟨hdot, hbrace⟩ := notMem_syntheticName hcalm.markers number
              have hnext := hwritten ⟨around.syntheticName number, none⟩ hbrace hpiece
              obtain rfl : read = ⟨around.syntheticName number, none⟩ :=
                Pattern.eq_of_ofHole?_inner hdot hnext
              exact absurd (by simp [Fields.keys]) hown
          | some text =>
              rw [splice_of_inserted? hinserted] at hpiece
              rcases inserted?_cases hinserted with ⟨s, hscalar, rfl⟩ | ⟨form, next, hform, hnext, rfl⟩
              · have hholes := hspliceable.holes _ hscalar
                rw [Pattern.hasHoles, List.any_eq_false] at hholes
                exact absurd rfl (hholes _ hpiece)
              · obtain ⟨hbrace, hforwarded⟩ := hspliceable.target _ _ hform hnext
                have hnext' := hwritten next hbrace hpiece
                have huses := (mem_uses_of_target? hform (Form.placeholder?_eq_some hnext)).2
                  ⟨rfl, hnot next hnext'⟩
                obtain ⟨entity, hentity, hfull⟩ :=
                  List.mem_map.1 (hcalm.uses target (mem_free_of_meaning hfree) next.name huses)
                obtain rfl :=
                  Pattern.eq_of_ofHole?_inner (hfull ▸ hcalm.names entity hentity) hnext'
                exact Or.inr ⟨hasked, ⟨target, form, hfree, hattr, hform, hnext⟩, hforwarded hexempt⟩
        · -- The name of a resource is exempt.
          have hwrites : (Value.getAtt (target.resourceName around.config) attr).inserted? =
              some (Placeholder.mk (target.resourceName around.config) (some attr)).text :=
            inserted?_of_placeholder (Form.recognize?_getAtt _ _) rfl
          rw [splice_of_inserted? hwrites] at hpiece
          have hbrace := Pattern.inner_of_ofHole? hplaceholder ▸ Pattern.notMem_of_hole_mem hhole
          have hresource : around.config.isExempt (target.resourceName around.config) = false :=
            hnot ⟨target.resourceName around.config, some attr⟩ (hwritten _
              (notMem_inner_resourceName hcalm.markers placeholder hfree hattr hbrace) hpiece)
          rw [Config.isExempt_resourceName hcalm.mark target] at hresource
          simp at hresource

/-- Where the names come from that are noted while a pattern is filled. -/
private structure NotedIn (around : Surroundings) (pattern : String) (start filling : Filling) :
    Prop where
  keys : start.arguments.keys ⊆ filling.arguments.keys
  noted : ∀ name ∈ filling.outcome.unresolved, name ∈ start.outcome.unresolved ∨
    (name ∈ Pattern.names pattern ∧ name ∉ start.arguments.keys ∧
      (around.meaning name).isOpen = true)

/-- Filling a pattern notes only names of the pattern that are not settled. -/
private theorem of_mem_unresolved_fill {pattern : String} {start : Filling}
    (hname : name ∈ (Pattern.fill (around.answer source path) pattern start).2.outcome.unresolved) :
    name ∈ start.outcome.unresolved ∨ (name ∈ Pattern.names pattern ∧
      name ∉ start.arguments.keys ∧ (around.meaning name).isOpen = true) := by
  have hstep : ∀ inner placeholder filling, .hole inner ∈ Pattern.pieces pattern →
      Placeholder.ofHole? inner = some placeholder → NotedIn around pattern start filling →
      NotedIn around pattern start (around.answer source path placeholder filling).2 := by
    intro inner placeholder filling hmem hhole hbefore
    refine ⟨fun key hkey => (growsTo_answer around source path placeholder filling).keys_subset
      (hbefore.keys hkey), ?_⟩
    have hanswered := answered around source path placeholder filling
    generalize (around.answer source path placeholder filling).1 = text at hanswered
    generalize (around.answer source path placeholder filling).2 = after at hanswered
    cases hanswered with
    | left hown hmeaning hopen =>
        intro name hname
        rcases Outcome.mem_unresolved_leave.1 hname with hold | ⟨-, rfl⟩
        · exact hbefore.noted name hold
        · exact Or.inr ⟨Pattern.mem_names.2 ⟨inner, placeholder, hmem, hhole, rfl⟩,
            fun h => hown (hbefore.keys h), hmeaning ▸ hopen⟩
    | _ => exact hbefore.noted
  have hstart : NotedIn around pattern start start := ⟨List.Subset.refl _, fun _ => Or.inl⟩
  exact (Pattern.fillPieces_invariant hstep hstart).noted name hname

/-- What is known of a pattern that has been filled. -/
structure Fills (around : Surroundings) (splicing : Splicing) (pattern text : String)
    (start filling : Filling) : Prop where
  closed : Pattern.isClosed pattern = true → Pattern.isClosed text = true
  solid : splicing.solid → Pattern.isSolid pattern.toList = true →
    Pattern.isSolid text.toList = true
  join : Pattern.isSpaced (Pattern.pieces text) = true ∨ splicing.solid
  grows : start.GrowsTo around filling
  /-- What is read now, and is neither bound by an argument nor exempt, stood in the pattern and is
  noted, or a free entity forwarded it. -/
  reads : ∀ read ∈ Pattern.placeholders text, read.name ∉ filling.arguments.keys →
    around.config.isExempt read.name = false →
    (read ∈ Pattern.placeholders pattern ∧ ¬ filling.outcome.IsClean) ∨
    ∃ placeholder ∈ Pattern.placeholders pattern, placeholder.name ∉ start.arguments.keys ∧
      around.Forwards placeholder read ∧ splicing.names read.name
  kept : ∀ name ∈ Pattern.names pattern, name ∉ filling.arguments.keys →
    (around.meaning name).isOpen = true → name ∈ filling.outcome.unresolved
  noted : ∀ name ∈ filling.outcome.unresolved, name ∈ start.outcome.unresolved ∨
    (name ∈ Pattern.names pattern ∧ name ∉ start.arguments.keys ∧
      (around.meaning name).isOpen = true)

theorem fills (hcalm : around.Calm splicing) {pattern text : String} {start filling : Filling}
    (hjoin : Pattern.isSpaced (Pattern.pieces pattern) = true ∨ splicing.solid)
    (hasks : Asks around splicing pattern start.arguments)
    (h : Pattern.fill (around.answer source path) pattern start = (text, filling)) :
    Fills around splicing pattern text start filling := by
  have htext : text = (Pattern.fill (around.answer source path) pattern start).1 := by rw [h]
  have hfilling : filling = (Pattern.fill (around.answer source path) pattern start).2 := by rw [h]
  have hinsertions := fun text => @harmless_insertions around splicing source path hcalm pattern
    text start hasks
  have hjoin' := hjoin.imp_right fun hsolid text hmem => (hinsertions text hmem).2.2 hsolid
  have hpieces := Pattern.pieces_fill (fun text hmem => (hinsertions text hmem).1) hjoin'
  subst htext hfilling
  refine ⟨?closed, ?solid, ?join, growsTo_fill .., ?reads,
    fun name hname hown => mem_unresolved_fill hname hown,
    fun name hname => of_mem_unresolved_fill hname⟩
  case closed =>
    intro hclosed
    exact Pattern.isClosed_fill hclosed (fun text hmem => (hinsertions text hmem).1) hjoin'
  case solid =>
    intro hsolid hpattern
    exact Pattern.isSolid_fill hpattern fun text hmem => (hinsertions text hmem).2.2 hsolid
  case join =>
    rw [hpieces]
    refine hjoin.imp_left fun hspaced => Pattern.isSpaced_filledPieces hspaced ?_
    exact fun text hmem => ⟨(hinsertions text hmem).1, (hinsertions text hmem).2.1⟩
  case reads =>
    intro read hmem hown hexempt
    obtain ⟨inner, hmem, hread⟩ := Pattern.mem_placeholders_iff.1 hmem
    -- The hole that is read stands in what came into the place of a hole of the old pattern.
    rw [hpieces] at hmem
    rcases Pattern.of_mem_filledPieces (growsTo_answer around source path) hmem with
      ⟨-, hnone⟩ | ⟨hole, placeholder, asked, hhole, hplaceholder, hfrom, hto, hpiece⟩
    · rw [hnone inner rfl] at hread
      simp at hread
    · have hasked : placeholder.name ∉ asked.arguments.keys →
          around.config.isExempt placeholder.name = false → splicing.names placeholder.name :=
        fun hown => hasks _ (Pattern.mem_names.2 ⟨hole, placeholder, hhole, hplaceholder, rfl⟩)
          fun hdeclared => hown (hfrom.keys_subset hdeclared)
      have hold := Pattern.mem_placeholders hhole hplaceholder
      rcases read_of_answer hcalm hhole hplaceholder hasked hpiece hread
        (fun hkey => hown (hto.keys_subset hkey)) hexempt with ⟨rfl, hnoted⟩ | ⟨hfresh, hforwards⟩
      · exact Or.inl ⟨hold, fun hclean => hnoted (hto.outcome.isClean hclean)⟩
      · exact Or.inr ⟨placeholder, hold, fun hdeclared => hfresh (hfrom.keys_subset hdeclared),
          hforwards⟩

/-- A name that is read now and that no argument binds stood in the pattern, or it was forwarded
by a free entity. -/
theorem Fills.names (hcalm : around.Calm splicing) {pattern text : String}
    {start filling : Filling} (h : Fills around splicing pattern text start filling)
    (hname : name ∈ Pattern.names text) (hown : name ∉ filling.arguments.keys)
    (hexempt : around.config.isExempt name = false) :
    (name ∈ Pattern.names pattern ∧
      (name ∈ Entity.names around.free ∨ name ∈ filling.outcome.unresolved)) ∨
    (splicing.names name ∧ name ∈ Entity.names around.free) := by
  obtain ⟨inner, read, hmem, hread, rfl⟩ := Pattern.mem_names.1 hname
  rcases h.reads read (Pattern.mem_placeholders hmem hread) hown hexempt with
    ⟨hold, -⟩ | ⟨placeholder, -, -, ⟨target, form, hfree, -, hform, hnext⟩, hspliced⟩
  · obtain ⟨hole, hhole, hread⟩ := Pattern.mem_placeholders_iff.1 hold
    have hname := Pattern.mem_names.2 ⟨hole, read, hhole, hread, rfl⟩
    refine Or.inl ⟨hname, ?_⟩
    exact (mem_names_or_isOpen hexempt).imp_right fun hopen => h.kept _ hname hown hopen
  · exact Or.inr ⟨hspliced, hcalm.uses target (mem_free_of_meaning hfree) read.name
      ((mem_uses_of_target? hform (Form.placeholder?_eq_some hnext)).2 ⟨rfl, hexempt⟩)⟩

/-! ## Parts -/

/-- What a pass makes of the parts of a tame value, one after the other. -/
structure ReducesParts (around : Surroundings) (splicing : Splicing) (parts done : Fields Value)
    (before after : Outcome) : Prop where
  tame : ∀ part ∈ done, part.2.IsTame around.config splicing
  uses : ∀ name, (∃ part ∈ done, name ∈ part.2.uses around.config) →
    name ∈ Entity.names around.free ∨
      ((∃ part ∈ parts, name ∈ part.2.uses around.config) ∧ name ∈ after.unresolved)
  noted : ∀ name ∈ after.unresolved, name ∈ before.unresolved ∨
    ((∃ part ∈ parts, name ∈ part.2.uses around.config) ∧ name ∉ Entity.names around.free)

/-- Passes over the parts reach their end if each of them does. -/
theorem exists_thread (source : String) {parts : Fields Value} (place : String → Path)
    (h : ∀ part ∈ parts, ∀ path before, ∃ w after,
      part.2.Rewrites (around.rule source) path before w after ∧
        Reduces around splicing part.2 w before after) (before : Outcome) :
    ∃ done after, Thread (fun key => Rewrites (around.rule source) (place key)) parts before
      done after ∧ ReducesParts around splicing parts done before after := by
  induction parts generalizing before with
  | nil => exact ⟨[], before, .nil before, by simp, by simp, fun name => Or.inl⟩
  | cons part rest ih =>
      obtain ⟨key, x⟩ := part
      obtain ⟨y, between, hhead, hreduces⟩ := h (key, x) List.mem_cons_self (place key) before
      obtain ⟨done, after, htail, hrest⟩ :=
        ih (fun other hother => h other (List.mem_cons_of_mem _ hother)) between
      have hgrows : between.GrowsTo around after :=
        htail.grows fun _ hstep => growsTo_rewrites hstep
      refine ⟨(key, y) :: done, after, .cons hhead htail, ?tame, ?uses, ?noted⟩
      case tame => exact List.forall_mem_cons.2 ⟨hreduces.tame, hrest.tame⟩
      case uses =>
        intro name hname
        simp only [List.mem_cons, exists_eq_or_imp] at hname ⊢
        rcases hname with hname | hname
        · rcases hreduces.uses name hname with hfree | ⟨hused, hnoted⟩
          · exact Or.inl hfree
          · exact Or.inr ⟨Or.inl hused, hgrows.unresolved_subset hnoted⟩
        · rcases hrest.uses name hname with hfree | ⟨hused, hnoted⟩
          · exact Or.inl hfree
          · exact Or.inr ⟨Or.inr hused, hnoted⟩
      case noted =>
        -- A name was noted at a later part, at this one, or before.
        intro name hname
        simp only [List.mem_cons, exists_eq_or_imp]
        rcases hrest.noted name hname with hbetween | ⟨hused, hnot⟩
        · rcases hreduces.noted name hbetween with hbefore | ⟨hused, hnot⟩
          · exact Or.inl hbefore
          · exact Or.inr ⟨Or.inl hused, hnot⟩
        · exact Or.inr ⟨Or.inr hused, hnot⟩

private theorem reduces_ordinary {parts : Fields Value} (hv : v.isCompound = true)
    (hordinary : v.isReserved = false) (hkeys : parts.map (·.1) = v.children.map (·.1))
    (hparts : ReducesParts around splicing v.children parts before after) :
    Reduces around splicing v (v.withChildren parts) before after := by
  have hordinary' : (v.withChildren parts).isReserved = false := by
    rw [isReserved_withChildren hkeys, hordinary]
  have hcompound : (v.withChildren parts).isCompound = true := by
    rw [isCompound_withChildren, hv]
  refine ⟨.ordinary hcompound hordinary' ?tame,
    fun _ => isSpliceable_of_ordinary hcompound hordinary', ?uses, ?noted⟩
  case tame =>
    rw [children_withChildren hkeys]
    exact hparts.tame
  case uses =>
    intro name hname
    rw [mem_uses_of_not_isReserved hordinary', children_withChildren hkeys] at hname
    rw [mem_uses_of_not_isReserved hordinary]
    exact hparts.uses name hname
  case noted =>
    intro name hname
    rw [mem_uses_of_not_isReserved hordinary]
    exact hparts.noted name hname

/-! ## Templates

The arguments of a template have been passed over, and its pattern has been filled; the three
results that this can have are a plain text, a template with the filled pattern, and the template
as it was. -/

section Template

variable {pattern text : String} {arguments : Option (Fields Value)} {done : Fields Value}
  {filling : Filling}

/-- What was noted at a template is used in it and is not free. -/
private theorem noted_template (hordinary : Fields.isReserved (arguments.getD []) = false)
    (hkeys : Fields.keys done = Fields.keys (arguments.getD []))
    (hparts : ReducesParts around splicing (arguments.getD []) done before outcome)
    (hfills : Fills around splicing pattern text (.start (some done) outcome) filling) :
    ∀ name ∈ filling.outcome.unresolved, name ∈ before.unresolved ∨
      (name ∈ (template pattern arguments).uses around.config ∧
        name ∉ Entity.names around.free) := by
  intro name hname
  rw [mem_uses_template hordinary]
  rcases hfills.noted name hname with hbefore | ⟨hmem, hown, hopen⟩
  · rcases hparts.noted name hbefore with hbefore | ⟨hold, hnot⟩
    · exact Or.inl hbefore
    · exact Or.inr ⟨Or.inr hold, hnot⟩
  · have hown' : name ∉ Fields.keys (arguments.getD []) := hkeys ▸ hown
    exact Or.inr ⟨Or.inl ⟨hmem, hown', (isOpen_meaning_iff.1 hopen).1⟩,
      notMem_names_of_isOpen hopen⟩

/-- What the arguments of a template use is free, or it was used before and is noted. -/
private theorem uses_arguments (hordinary : Fields.isReserved (arguments.getD []) = false)
    (hparts : ReducesParts around splicing (arguments.getD []) done before outcome)
    (hfills : Fills around splicing pattern text (.start (some done) outcome) filling)
    (hname : ∃ argument ∈ done, name ∈ argument.2.uses around.config) :
    name ∈ Entity.names around.free ∨
      (name ∈ (template pattern arguments).uses around.config ∧
        name ∈ filling.outcome.unresolved) := by
  rcases hparts.uses name hname with hfree | ⟨hold, hnoted⟩
  · exact Or.inl hfree
  · exact Or.inr ⟨(mem_uses_template hordinary).2 (Or.inr hold),
      hfills.grows.outcome.unresolved_subset hnoted⟩

private theorem reduces_text (hordinary : Fields.isReserved (arguments.getD []) = false)
    (hkeys : Fields.keys done = Fields.keys (arguments.getD []))
    (hparts : ReducesParts around splicing (arguments.getD []) done before outcome)
    (hfills : Fills around splicing pattern text (.start (some done) outcome) filling)
    (hholes : Pattern.hasHoles text = false) :
    Reduces around splicing (template pattern arguments) (.string text) before
      filling.outcome := by
  refine ⟨.scalar _, ?spliceable, ?uses, noted_template hordinary hkeys hparts hfills⟩
  case spliceable =>
    intro hv
    refine ⟨?closed, ?solid, ?holes, ?target⟩
    case closed =>
      rintro _ ⟨rfl⟩
      exact hfills.closed (hv.closed pattern (written?_template pattern arguments))
    case solid =>
      rintro hsolid _ ⟨rfl⟩
      exact hfills.solid hsolid (hv.solid hsolid pattern (written?_template pattern arguments))
    case holes =>
      intro s hs
      cases hs
      exact hholes
    case target =>
      simp [Value.string, Form.recognize?]
  case uses =>
    intro name hname
    simp [uses_string] at hname

private theorem reduces_filled (hcalm : around.Calm splicing)
    (hordinary : Fields.isReserved (arguments.getD []) = false)
    (hasks : Asks around splicing pattern (arguments.getD []))
    (hkeys : Fields.keys done = Fields.keys (arguments.getD []))
    (hparts : ReducesParts around splicing (arguments.getD []) done before outcome)
    (hfills : Fills around splicing pattern text (.start (some done) outcome) filling) :
    Reduces around splicing (template pattern arguments) (.sub text filling.arguments) before
      filling.outcome := by
  obtain ⟨added, hadded, hall⟩ := hfills.grows.arguments
  have harguments : filling.arguments = done ++ added := hadded
  rw [sub_eq_template]
  have hordinary' : Fields.isReserved ((if filling.arguments.isEmpty then none
      else some filling.arguments).getD []) = false := by
    rw [getD_ifEmpty, harguments, Filling.isReserved_append done hall,
      Fields.isReserved_congr hkeys, hordinary, Bool.and_false]
  have hdeclared : ∀ name, name ∉ filling.arguments.keys →
      name ∉ Fields.keys (arguments.getD []) := fun name hown hdeclared =>
    hown (hfills.grows.keys_subset (hkeys ▸ hdeclared))
  refine ⟨.template hfills.join ?names hordinary' ?arguments, ?spliceable, ?uses,
    noted_template hordinary hkeys hparts hfills⟩
  case names =>
    intro name hname hexempt
    rw [Form.mem_uses_substitution, getD_ifEmpty] at hname
    rcases hfills.names hcalm hname.1 hname.2 hexempt with ⟨hold, -⟩ | ⟨hforwarded, -⟩
    · exact hasks name hold (hdeclared name hname.2) hexempt
    · exact hforwarded
  case arguments =>
    rw [getD_ifEmpty, harguments]
    refine List.forall_mem_append.2 ⟨hparts.tame, ?_⟩
    intro argument hargument
    obtain ⟨target, htarget, hvalue⟩ := (hall argument hargument).value
    exact hvalue ▸ hcalm.tame target htarget
  case spliceable =>
    intro hv
    have hpattern := written?_template pattern arguments
    exact isSpliceable_template (hfills.closed (hv.closed pattern hpattern))
      fun hsolid => hfills.solid hsolid (hv.solid hsolid pattern hpattern)
  case uses =>
    intro name hname
    rw [mem_uses_template hordinary', getD_ifEmpty] at hname
    rcases hname with ⟨hmem, hown, hexempt⟩ | ⟨argument, hargument, hname⟩
    · rcases hfills.names hcalm hmem hown hexempt with ⟨hold, hfree | hnoted⟩ | ⟨-, hfree⟩
      · exact Or.inl hfree
      · exact Or.inr ⟨(mem_uses_template hordinary).2
          (Or.inl ⟨hold, hdeclared name hown, hexempt⟩), hnoted⟩
      · exact Or.inl hfree
    · rw [harguments] at hargument
      rcases List.mem_append.1 hargument with hargument | hargument
      · exact uses_arguments hordinary hparts hfills ⟨argument, hargument, hname⟩
      · -- An added argument is the reference of a free entity.
        obtain ⟨target, htarget, hvalue⟩ := (hall argument hargument).value
        exact Or.inl (hcalm.uses target htarget name (hvalue ▸ hname))

private theorem reduces_unchanged
    (hjoin : Pattern.isSpaced (Pattern.pieces pattern) = true ∨ splicing.solid)
    (hordinary : Fields.isReserved (arguments.getD []) = false)
    (hasks : Asks around splicing pattern (arguments.getD []))
    (hkeys : Fields.keys done = Fields.keys (arguments.getD []))
    (hdone : (arguments.map fun _ => done).getD [] = done)
    (hparts : ReducesParts around splicing (arguments.getD []) done before outcome)
    (hfills : Fills around splicing pattern text (.start (some done) outcome) filling)
    (hchanged : filling.changed = false) :
    Reduces around splicing (template pattern arguments)
      (template pattern (arguments.map fun _ => done)) before filling.outcome := by
  have hsame : filling.arguments = done := hfills.grows.unchanged hchanged
  have hordinary' : Fields.isReserved ((arguments.map fun _ => done).getD []) = false := by
    rw [hdone, Fields.isReserved_congr hkeys, hordinary]
  refine ⟨.template hjoin ?names hordinary' (hdone.symm ▸ hparts.tame), ?spliceable, ?uses,
    noted_template hordinary hkeys hparts hfills⟩
  case names =>
    intro name hname hexempt
    rw [Form.mem_uses_substitution, hdone, hkeys] at hname
    exact hasks name hname.1 hname.2 hexempt
  case spliceable =>
    intro hv
    have hpattern := written?_template pattern arguments
    exact isSpliceable_template (hv.closed pattern hpattern)
      fun hsolid => hv.solid hsolid pattern hpattern
  case uses =>
    intro name hname
    rw [mem_uses_template hordinary', hdone] at hname
    rcases hname with ⟨hmem, hown, hexempt⟩ | hname
    · rcases mem_names_or_isOpen hexempt with hfree | hopen
      · exact Or.inl hfree
      · exact Or.inr ⟨(mem_uses_template hordinary).2 (Or.inl ⟨hmem, hkeys ▸ hown, hexempt⟩),
          hfills.kept name hmem (hsame.symm ▸ hown) hopen⟩
    · exact uses_arguments hordinary hparts hfills hname

private theorem reduces_template (hcalm : around.Calm splicing)
    (hjoin : Pattern.isSpaced (Pattern.pieces pattern) = true ∨ splicing.solid)
    (hasks : Asks around splicing pattern (arguments.getD []))
    (hordinary : Fields.isReserved (arguments.getD []) = false)
    (hthread : Thread (fun key => Rewrites (around.rule source) ((argumentsPath path).push key))
      (arguments.getD []) before done outcome)
    (hparts : ReducesParts around splicing (arguments.getD []) done before outcome)
    (h : around.substitution source path (template pattern (arguments.map fun _ => done)) pattern
      (arguments.map fun _ => done) outcome = (w, later)) :
    Reduces around splicing (template pattern arguments) w before later := by
  have hkeys : Fields.keys done = Fields.keys (arguments.getD []) := hthread.keys_eq
  have hdone := getD_map_of_keys_eq hkeys
  have hstart :
      Filling.start (arguments.map fun _ => done) outcome = .start (some done) outcome := by
    simp only [Filling.start, hdone, Option.getD_some]
  obtain ⟨text, filling, hfill, hnotes, hresult⟩ := substitution_cases around source path
    (template pattern (arguments.map fun _ => done)) pattern (arguments.map fun _ => done) outcome
  rw [h] at hnotes hresult
  obtain rfl : later = filling.outcome := hnotes
  have hasks' : Asks around splicing pattern done := fun name hname hown =>
    hasks name hname (hkeys ▸ hown)
  have hfills : Fills around splicing pattern text (.start (some done) outcome) filling :=
    fills hcalm hjoin hasks' (hstart ▸ hfill)
  rcases hresult with ⟨-, hholes, rfl⟩ | ⟨-, rfl⟩ | ⟨hchanged, rfl⟩
  · exact reduces_text hordinary hkeys hparts hfills hholes
  · exact reduces_filled hcalm hordinary hasks hkeys hparts hfills
  · exact reduces_unchanged hjoin hordinary hasks hkeys hdone hparts hfills hchanged

end Template

/-- A pass over a tame value reaches its end and adds no dependency. -/
theorem exists_rewrites_of_isTame (hcalm : around.Calm splicing) (source : String)
    (hv : v.IsTame around.config splicing) (path : Path) (before : Outcome) :
    ∃ w after, v.Rewrites (around.rule source) path before w after ∧
      Reduces around splicing v w before after := by
  induction hv generalizing path before with
  | scalar s =>
      refine ⟨.scalar s, before, rewrites_scalar_iff.2 ⟨rfl, rfl⟩, .scalar s, id, ?_,
        fun name => Or.inl⟩
      simp [uses_scalar]
  | @ordinary v hv hordinary _ ih =>
      obtain ⟨parts, after, hthread, hparts⟩ := exists_thread source path.push ih before
      exact ⟨_, after, (rewrites_of_not_isReserved hv hordinary).2 ⟨parts, rfl, hthread⟩,
        reduces_ordinary hv hordinary hthread.keys_eq hparts⟩
  | target hform hplaceholder =>
      exact ⟨_, _, (rewrites_target_iff hform (Form.placeholder?_eq_some hplaceholder)).2 rfl,
        reduces_target hcalm hform hplaceholder⟩
  | @template pattern arguments hjoin hnames hordinary _ ih =>
      obtain ⟨done, between, hthread, hparts⟩ :=
        exists_thread source (argumentsPath path).push ih before
      have hasks : Asks around splicing pattern (arguments.getD []) := fun name hname hown =>
        hnames name (Form.mem_uses_substitution.2 ⟨hname, hown⟩)
      exact ⟨_, _, (rewrites_template_iff hordinary).2 ⟨done, between, hthread, rfl⟩,
        reduces_template hcalm hjoin hasks hordinary hthread hparts rfl⟩

end Surroundings

end StackLinker
