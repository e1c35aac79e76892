import StackLinker.Proofs.Dependency.Reducing
import StackLinker.Proofs.Substitution.Granting

/-!
# A second pass

A pass leaves partly rewritten values behind, and the next sweep goes over them again.  If no entity
has become free in between, the second pass should find what the first one found: the same value
and the same notes (`rewrites_again`).  Where the first pass noted nothing at all, no later pass will
ever find anything to do (`isFinal_of_isClean`).

Both are statements about the patterns that are read again.  A text that was put in must be inert,
which is why the references of free entities have to be final.  A placeholder that was noted must be
noted again, so none of the arguments that were added may have its name (`Still.numbers`).
-/

namespace StackLinker

namespace Surroundings

open Value

/-- Calm surroundings in which nothing is left to do in the free entities, and in which no name that
a placeholder may ask for is that of an added argument. -/
structure Still (around : Surroundings) (splicing : Splicing) : Prop
    extends around.Calm splicing where
  final : ∀ target ∈ around.free, target.reference.IsFinal around.config
  numbers : ∀ name, splicing.names name → ¬ around.config.IsSynthetic name

variable {around : Surroundings} {splicing : Splicing} {source : String} {path : Path}
  {v w : Value} {before after notes : Outcome} {placeholder : Placeholder} {hole : List Char}
  {pieces : List Piece} {declared : Fields Value} {filling twin start : Filling}
  {pattern text : String}

/-! ## Patterns -/

theorem Still.isFinal_of_grant (hstill : around.Still splicing)
    (hgrant : around.grant? placeholder = some w) : w.IsFinal around.config := by
  obtain ⟨target, hmeaning, ⟨-, rfl⟩ | ⟨attr, -, rfl⟩⟩ := grant?_eq_some hgrant
  · exact hstill.final target (mem_free_of_meaning hmeaning)
  · exact (isFinal_target_iff (Form.recognize?_getAtt _ _) rfl).2
      (Config.isExempt_resourceName hstill.mark target)

/-- The text of what is granted is inert. -/
theorem Still.isInert_of_grant (hstill : around.Still splicing)
    (hread : Placeholder.ofHole? hole = some placeholder) (hbrace : '}' ∉ hole)
    (hname : around.config.isExempt placeholder.name = false → splicing.names placeholder.name)
    (hgrant : around.grant? placeholder = some w) (htext : w.inserted? = some text)
    (keys : List String) : Pattern.IsInert around.config keys (Pattern.pieces text) := by
  have hfinal := hstill.isFinal_of_grant hgrant
  obtain ⟨target, hmeaning, ⟨-, rfl⟩ | ⟨attr, hattr, rfl⟩⟩ := grant?_eq_some hgrant
  · have hspliceable := hstill.spliceable_of_meaning hmeaning hname
    rcases inserted?_cases htext with ⟨s, hscalar, rfl⟩ | ⟨form, next, hform, hnext, rfl⟩
    · exact Pattern.isInert_of_not_hasHoles (hspliceable.holes s hscalar)
    · have hexempt := (isFinal_target_iff hform hnext).1 hfinal
      exact Pattern.isInert_text (hspliceable.target form next hform hnext).1
        fun read hread => Or.inr (Config.isExempt_of_read hstill.markers hexempt hread)
  · rw [inserted?_of_placeholder (Form.recognize?_getAtt _ _) rfl] at htext
    obtain rfl := Option.some.inj htext
    have hexempt := Config.isExempt_resourceName hstill.mark target
    rw [← Pattern.inner_of_ofHole? hread] at hbrace
    exact Pattern.isInert_text
      (notMem_inner_resourceName hstill.markers placeholder hmeaning hattr hbrace)
      fun read hread => Or.inr (@Config.isExempt_of_read _ hstill.markers
        ⟨target.resourceName around.config, some attr⟩ _ hexempt hread)

/-- A placeholder for an added argument is inert where the argument is known. -/
theorem isInert_syntheticName (hmarkers : around.config.HasPlainMarkers) {number : Nat}
    {keys : List String} (hmem : around.syntheticName number ∈ keys) :
    Pattern.IsInert around.config keys
      (Pattern.pieces (Placeholder.mk (around.syntheticName number) none).text) := by
  obtain ⟨hdot, hbrace⟩ := notMem_syntheticName hmarkers number
  refine Pattern.isInert_text hbrace fun read hread => Or.inl ?_
  obtain rfl := Pattern.eq_of_ofHole?_inner hdot hread
  exact hmem

/-- What is granted is inert where it has been put into a pattern. -/
theorem Still.isInert_splice (hstill : around.Still splicing)
    (hread : Placeholder.ofHole? hole = some placeholder) (hbrace : '}' ∉ hole)
    (hname : around.config.isExempt placeholder.name = false → splicing.names placeholder.name)
    (hgrant : around.grant? placeholder = some w) {keys : List String}
    (hkeys : (around.splice w filling).2.arguments.keys ⊆ keys) :
    Pattern.IsInert around.config keys (Pattern.pieces (around.splice w filling).1) ∧
      (around.splice w filling).2.outcome = filling.outcome := by
  refine ⟨?_, outcome_splice around w filling⟩
  cases hinserted : w.inserted? with
  | some text =>
      rw [splice_of_inserted? hinserted]
      exact hstill.isInert_of_grant hread hbrace hname hgrant hinserted keys
  | none =>
      obtain ⟨number, -, hsplice⟩ := splice_of_not_inserted hinserted filling
      rw [hsplice] at hkeys ⊢
      exact isInert_syntheticName hstill.markers (hkeys (by simp [Fields.keys]))

private theorem eq_of_outcome (h : twin.outcome = notes) :
    { twin with outcome := notes } = twin := by
  subst h
  rfl

private theorem isInert_hole (hread : Placeholder.ofHole? hole = some placeholder)
    {keys : List String}
    (h : placeholder.name ∈ keys ∨ around.config.isExempt placeholder.name = true) :
    Pattern.IsInert around.config keys [.hole hole] := by
  intro other read hmem hother
  rw [List.mem_singleton] at hmem
  rw [Piece.hole.inj hmem, hread] at hother
  exact Option.some.inj hother ▸ h

/-- What has come into the place of a placeholder stays, with the same notes. -/
private theorem replacement_again (hstill : around.Still splicing)
    (hread : Placeholder.ofHole? hole = some placeholder) (hbrace : '}' ∉ hole)
    (hname : placeholder.name ∉ declared.keys → around.config.isExempt placeholder.name = false →
      splicing.names placeholder.name)
    (hfilling : filling.Extends around declared) (htwin : twin.Extends around declared)
    (hkeys : (around.answer source path placeholder filling).2.arguments.keys ⊆
      twin.arguments.keys) (hnotes : twin.outcome = filling.outcome) :
    Pattern.fillPieces (around.answer source path)
        (Pattern.replacement hole (around.answer source path placeholder filling).1) twin =
      ((Pattern.replacement hole (around.answer source path placeholder filling).1).flatMap
          Piece.render,
        { twin with outcome := (around.answer source path placeholder filling).2.outcome }) := by
  by_cases hown : placeholder.name ∈ filling.arguments.keys
  · rw [answer_of_own hown] at hkeys ⊢
    rw [eq_of_outcome hnotes]
    exact fillPieces_of_isInert (isInert_hole hread (Or.inl (hkeys hown)))
  · have hname := hname fun hdeclared => hown (hfilling.declared_subset hdeclared)
    cases hgrant : around.grant? placeholder with
    | some granted =>
        rw [answer_of_grant hown hgrant] at hkeys ⊢
        obtain ⟨hinert, houtcome⟩ := hstill.isInert_splice hread hbrace hname hgrant hkeys
        simp only [houtcome, eq_of_outcome hnotes]
        exact fillPieces_of_isInert hinert
    | none =>
        rw [answer_of_denied hown hgrant]
        cases hexempt : around.config.isExempt placeholder.name with
        | true =>
            simp only [note_of_isExempt hexempt, eq_of_outcome hnotes]
            exact fillPieces_of_isInert (isInert_hole hread (Or.inr hexempt))
        | false =>
            -- No argument has taken the name in the meantime.
            have hstays : placeholder.name ∉ twin.arguments.keys :=
              htwin.notMem_keys (fun hdeclared => hown (hfilling.declared_subset hdeclared))
                (hstill.numbers _ (hname hexempt))
            simp [Pattern.replacement, Pattern.fillPieces, hread, answer_of_denied hstays hgrant,
              hnotes]

private theorem fillPieces_again (hstill : around.Still splicing)
    (hbraces : ∀ hole, .hole hole ∈ pieces → '}' ∉ hole)
    (hnames : ∀ hole placeholder, .hole hole ∈ pieces →
      Placeholder.ofHole? hole = some placeholder → placeholder.name ∉ declared.keys →
      around.config.isExempt placeholder.name = false → splicing.names placeholder.name)
    (hfilling : filling.Extends around declared) (htwin : twin.Extends around declared)
    (hkeys : (Pattern.fillPieces (around.answer source path) pieces filling).2.arguments.keys ⊆
      twin.arguments.keys) (hnotes : twin.outcome = filling.outcome) :
    Pattern.fillPieces (around.answer source path)
        (Pattern.filledPieces (around.answer source path) pieces filling) twin =
      ((Pattern.filledPieces (around.answer source path) pieces filling).flatMap Piece.render,
        { twin with
          outcome := (Pattern.fillPieces (around.answer source path) pieces filling).2.outcome }) := by
  induction pieces generalizing filling twin with
  | nil => simp [Pattern.filledPieces, Pattern.fillPieces, eq_of_outcome hnotes]
  | cons piece rest ih =>
      have hrest := fun {filling twin : Filling} => @ih filling twin
        (fun hole hmem => hbraces hole (List.mem_cons_of_mem _ hmem))
        fun hole placeholder hmem => hnames hole placeholder (List.mem_cons_of_mem _ hmem)
      cases piece with
      | char c =>
          simp only [Pattern.fillPieces, Pattern.filledPieces] at hkeys ⊢
          rw [hrest hfilling htwin hkeys hnotes, List.flatMap_cons]
          rfl
      | hole hole =>
          cases hread : Placeholder.ofHole? hole with
          | none =>
              simp only [Pattern.fillPieces, Pattern.filledPieces, hread] at hkeys ⊢
              rw [hrest hfilling htwin hkeys hnotes, List.flatMap_cons]
          | some placeholder =>
              simp only [Pattern.fillPieces, Pattern.filledPieces, hread] at hkeys ⊢
              have hgrows := Pattern.fillPieces_grows (growsTo_answer around source path) rest
                (around.answer source path placeholder filling).2
              have hhead := replacement_again hstill hread (hbraces hole List.mem_cons_self)
                (hnames hole placeholder List.mem_cons_self hread) hfilling htwin
                (fun key hkey => hkeys (hgrows.keys_subset hkey)) hnotes
              have htail := @hrest _ { twin with
                outcome := (around.answer source path placeholder filling).2.outcome }
                (hfilling.answer placeholder) htwin hkeys rfl
              rw [Pattern.fillPieces_append, hhead]
              simp only [htail, List.flatMap_append]

/-- The placeholders of a pattern that no argument binds have names that are asked for. -/
theorem names_of_asks (hasks : Asks around splicing pattern declared) {hole : List Char}
    {placeholder : Placeholder} (hmem : .hole hole ∈ Pattern.pieces pattern)
    (hread : Placeholder.ofHole? hole = some placeholder) (hown : placeholder.name ∉ declared.keys)
    (hexempt : around.config.isExempt placeholder.name = false) :
    splicing.names placeholder.name :=
  hasks _ (Pattern.mem_names.2 ⟨hole, placeholder, hmem, hread, rfl⟩) hown hexempt

/-- A filled pattern is read as it was written. -/
theorem pieces_fill_of_calm (hcalm : around.Calm splicing)
    (hjoin : Pattern.isSpaced (Pattern.pieces pattern) = true ∨ splicing.solid)
    (hasks : Asks around splicing pattern start.arguments)
    (hfill : Pattern.fill (around.answer source path) pattern start = (text, filling)) :
    Pattern.pieces text =
      Pattern.filledPieces (around.answer source path) (Pattern.pieces pattern) start := by
  have hinsertions := fun text => @harmless_insertions around splicing source path hcalm pattern
    text start hasks
  rw [show text = (Pattern.fill (around.answer source path) pattern start).1 by rw [hfill]]
  exact Pattern.pieces_fill (fun text hmem => (hinsertions text hmem).1)
    (hjoin.imp_right fun hsolid text hmem => (hinsertions text hmem).2.2 hsolid)

/-- Filling a pattern again that has been filled only takes the notes again. -/
theorem fill_again (hstill : around.Still splicing)
    (hjoin : Pattern.isSpaced (Pattern.pieces pattern) = true ∨ splicing.solid)
    (hasks : Asks around splicing pattern start.arguments)
    (hfill : Pattern.fill (around.answer source path) pattern start = (text, filling))
    (harguments : twin.arguments = filling.arguments) (hnotes : twin.outcome = start.outcome) :
    Pattern.fill (around.answer source path) text twin =
      (text, { twin with outcome := filling.outcome }) := by
  have hpieces := pieces_fill_of_calm hstill.toCalm hjoin hasks hfill
  have hfilling : filling =
      (Pattern.fillPieces (around.answer source path) (Pattern.pieces pattern) start).2 :=
    (congrArg Prod.snd hfill).symm
  have hstart : start.Extends around start.arguments := ⟨[], by simp, by simp, by simp [Fields.keys]⟩
  have hextends : filling.Extends around start.arguments := hfilling ▸ hstart.fillPieces _
  have htwin : twin.Extends around start.arguments := by
    unfold Filling.Extends
    rw [harguments]
    exact hextends
  have hkeys : (Pattern.fillPieces (around.answer source path) (Pattern.pieces pattern)
      start).2.arguments.keys ⊆ twin.arguments.keys := by
    rw [← hfilling, harguments]
    exact List.Subset.refl _
  have hbraces : ∀ hole, .hole hole ∈ Pattern.pieces pattern → '}' ∉ hole :=
    fun _ hmem => Pattern.notMem_of_hole_mem hmem
  have hagain := fillPieces_again hstill hbraces (fun hole placeholder => names_of_asks hasks)
    hstart htwin hkeys hnotes
  rw [← hpieces, ← hfilling] at hagain
  unfold Pattern.fill
  rw [hagain]
  exact Prod.ext (Pattern.render_pieces text) rfl

/-- Where nothing was noted, a filled pattern is inert. -/
theorem isInert_fill (hstill : around.Still splicing)
    (hjoin : Pattern.isSpaced (Pattern.pieces pattern) = true ∨ splicing.solid)
    (hasks : Asks around splicing pattern start.arguments)
    (hfill : Pattern.fill (around.answer source path) pattern start = (text, filling))
    (hclean : filling.outcome.IsClean) :
    Pattern.IsInert around.config filling.arguments.keys (Pattern.pieces text) := by
  have hfilling : filling =
      (Pattern.fillPieces (around.answer source path) (Pattern.pieces pattern) start).2 :=
    (congrArg Prod.snd hfill).symm
  intro inner read hmem hread
  rw [pieces_fill_of_calm hstill.toCalm hjoin hasks hfill] at hmem
  rcases Pattern.of_mem_filledPieces (growsTo_answer around source path) hmem with
    ⟨-, hnone⟩ | ⟨hole, placeholder, asked, hhole, hplaceholder, hfrom, hto, hpiece⟩
  · rw [hnone inner rfl] at hread
    simp at hread
  · rw [show (Pattern.fillPieces _ _ start).2 = filling from hfilling.symm] at hto
    have hbrace := Pattern.notMem_of_hole_mem hhole
    -- A hole that stays is bound, or it would have been noted.
    have hstays : placeholder.name ∈ filling.arguments.keys ∨
        around.config.isExempt placeholder.name = true →
        Pattern.IsInert around.config filling.arguments.keys [.hole hole] :=
      isInert_hole hplaceholder
    suffices hinert : Pattern.IsInert around.config filling.arguments.keys
        (Pattern.replacement hole (around.answer source path placeholder asked).1) from
      hinert inner read hpiece hread
    by_cases hown : placeholder.name ∈ asked.arguments.keys
    · rw [answer_of_own hown] at hto ⊢
      exact hstays (Or.inl (hto.keys_subset hown))
    · cases hgrant : around.grant? placeholder with
      | some granted =>
          rw [answer_of_grant hown hgrant] at hto ⊢
          have hname := names_of_asks hasks hhole hplaceholder
            fun hdeclared => hown (hfrom.keys_subset hdeclared)
          exact (hstill.isInert_splice hplaceholder hbrace hname hgrant hto.keys_subset).1
      | none =>
          rw [answer_of_denied hown hgrant] at hto ⊢
          exact hstays (Or.inr (isExempt_of_isClean_note hgrant (hto.outcome.isClean hclean)))

/-! ## Values -/

/-- A pass over a substitution: the arguments are gone over, the pattern is filled, and the result is
a plain text, or a substitution with the filled pattern and the arguments at the end. -/
structure Refills (around : Surroundings) (splicing : Splicing) (source : String)
    (path : Path) (pattern : String) (arguments : Option (Fields Value)) (before : Outcome)
    (w : Value) (done : Fields Value) (between : Outcome) (text : String) (filling : Filling) :
    Prop where
  thread : Thread (fun key => Rewrites (around.rule source) ((argumentsPath path).push key))
    (arguments.getD []) before done between
  fill : Pattern.fill (around.answer source path) pattern (.start (some done) between) =
    (text, filling)
  asks : Asks around splicing pattern done
  /-- Behind the declared arguments stand references of free entities. -/
  added : ∃ added, filling.arguments = done ++ added ∧
    ∀ argument ∈ added, ∃ target ∈ around.free, argument.2 = target.reference
  ordinary : Fields.isReserved filling.arguments = false
  result : (filling.arguments = [] ∧ Pattern.hasHoles text = false ∧ w = .string text) ∨
    (¬ (filling.arguments = [] ∧ Pattern.hasHoles text = false) ∧
      ∃ all, all.getD [] = filling.arguments ∧ w = template text all ∧
        all.isSome = if filling.changed then !filling.arguments.isEmpty else arguments.isSome)

theorem exists_refills {arguments : Option (Fields Value)}
    (hasks : Asks around splicing pattern (arguments.getD []))
    (hordinary : Fields.isReserved (arguments.getD []) = false)
    (h : (template pattern arguments).Rewrites (around.rule source) path before w after) :
    ∃ done between text filling, after = filling.outcome ∧
      Refills around splicing source path pattern arguments before w done between text filling := by
  obtain ⟨done, between, hthread, hsettle⟩ := (rewrites_template_iff hordinary).1 h
  have hkeys : Fields.keys done = Fields.keys (arguments.getD []) := hthread.keys_eq
  have hdone := getD_map_of_keys_eq hkeys
  have hstart :
      Filling.start (arguments.map fun _ => done) between = .start (some done) between := by
    simp only [Filling.start, hdone, Option.getD_some]
  rcases hfill : Pattern.fill (around.answer source path) pattern (.start (some done) between) with
    ⟨text, filling⟩
  rw [settle, substitution_eq (hstart ▸ hfill), Prod.mk.injEq] at hsettle
  obtain ⟨rfl, rfl⟩ := hsettle
  have hgrows : (Filling.start (some done) between).GrowsTo around filling := by
    have := growsTo_fill around source path pattern (.start (some done) between)
    rwa [hfill] at this
  obtain ⟨added, hadded, hall⟩ := hgrows.arguments
  refine ⟨done, between, text, filling, rfl, hthread, hfill, ?asks,
    ⟨added, hadded, fun argument hargument => (hall argument hargument).value⟩, ?ordinary, ?result⟩
  case asks => exact fun name hname hown => hasks name hname (hkeys ▸ hown)
  case ordinary =>
    rw [show filling.arguments = done ++ added from hadded, Filling.isReserved_append done hall,
      Fields.isReserved_congr hkeys, hordinary, Bool.and_false]
  case result =>
    by_cases hplain : filling.arguments = [] ∧ Pattern.hasHoles text = false
    · exact Or.inl ⟨hplain.1, hplain.2, by simp [Filling.result, hplain]⟩
    · have hnot : ¬ (filling.arguments.isEmpty && !Pattern.hasHoles text) = true := by
        rwa [Bool.and_eq_true, List.isEmpty_iff, Bool.not_eq_true']
      refine Or.inr ⟨hplain, ?_⟩
      rw [Filling.result, if_neg hnot]
      cases hchanged : filling.changed with
      | true =>
          refine ⟨_, getD_ifEmpty filling.arguments, sub_eq_template text filling.arguments, ?_⟩
          cases filling.arguments <;> rfl
      | false =>
          -- Nothing was replaced, so the pattern is the old one.
          have hsame : filling.arguments = done := hgrows.unchanged hchanged
          obtain rfl := eq_of_fill_of_unchanged hfill hchanged
          exact ⟨_, hdone.trans hsame.symm, rfl, by simp⟩

/-- A second pass over the result of a pass over a substitution. -/
private theorem Refills.again (hstill : around.Still splicing)
    (hjoin : Pattern.isSpaced (Pattern.pieces pattern) = true ∨ splicing.solid)
    {arguments : Option (Fields Value)} {done : Fields Value}
    (h : Refills around splicing source path pattern arguments before w done notes text filling)
    (hdone : Thread (fun key => Rewrites (around.rule source) ((argumentsPath path).push key))
      done before done notes) :
    w.Rewrites (around.rule source) path before w filling.outcome := by
  have hagain := fun twin : Filling => @fill_again _ _ _ _ _ twin _ _ _ hstill hjoin h.asks h.fill
  obtain ⟨added, hadded, hall⟩ := h.added
  rcases h.result with ⟨hnil, hholes, rfl⟩ | ⟨hplain, all, hgetD, rfl, -⟩
  · -- In a plain text nothing was left, so nothing was noted.
    obtain rfl : done = [] := (List.append_eq_nil_iff.1 (hadded ▸ hnil)).1
    obtain ⟨-, rfl⟩ := Thread.thread_nil_iff.1 hdone
    have hinert := @fillPieces_of_isInert around source path { filling with outcome := notes } _
      (Pattern.isInert_of_not_hasHoles hholes)
    have htwice := hagain { filling with outcome := notes } rfl rfl
    rw [Pattern.fill, hinert, Prod.mk.injEq] at htwice
    have hnotes : notes = filling.outcome := congrArg Filling.outcome htwice.2
    exact rewrites_scalar_iff.2 ⟨rfl, hnotes.symm⟩
  · have hsame : (all.map fun _ => filling.arguments) = all := by
      rw [← hgetD]
      cases all <;> rfl
    refine (rewrites_template_iff (hgetD ▸ h.ordinary)).2 ⟨filling.arguments, notes, ?_, ?_⟩
    · rw [hgetD, hadded]
      refine hdone.append (thread_final rfl (fun argument hargument => ?_) notes)
      obtain ⟨target, htarget, hvalue⟩ := hall argument hargument
      exact hvalue ▸ hstill.final target htarget
    · have htwice := hagain (.start all notes) hgetD rfl
      have hnot : ¬ ((Filling.start all notes).arguments.isEmpty && !Pattern.hasHoles text) = true := by
        rwa [Bool.and_eq_true, List.isEmpty_iff, Bool.not_eq_true',
          show (Filling.start all notes).arguments = filling.arguments from hgetD]
      rw [hsame, settle, substitution_eq htwice, Filling.result, if_neg hnot]
      rfl

/-- A pass over the result of a pass leaves it as it is and takes the same notes. -/
theorem rewrites_again (hstill : around.Still splicing) (hv : v.IsTame around.config splicing)
    (h : v.Rewrites (around.rule source) path before w after) :
    w.Rewrites (around.rule source) path before w after := by
  induction hv generalizing path before w after with
  | scalar s =>
      obtain ⟨rfl, rfl⟩ := rewrites_scalar_iff.1 h
      exact h
  | @ordinary v hv hordinary _ ih =>
      obtain ⟨parts, rfl, hthread⟩ := (rewrites_of_not_isReserved hv hordinary).1 h
      have hkeys := hthread.keys_eq
      have hcompound : (v.withChildren parts).isCompound = true := by rw [isCompound_withChildren, hv]
      have hordinary' : (v.withChildren parts).isReserved = false := by
        rw [isReserved_withChildren hkeys, hordinary]
      refine (rewrites_of_not_isReserved hcompound hordinary').2 ⟨parts, ?_, ?_⟩
      · rw [withChildren_withChildren hkeys hkeys]
      · rw [children_withChildren hkeys]
        exact hthread.again fun hmem hstep => ih _ hmem hstep
  | @target v form placeholder hform hplaceholder =>
      have hsettle := (rewrites_target_iff hform (Form.placeholder?_eq_some hplaceholder)).1 h
      rw [settle_target_eq hplaceholder, Prod.mk.injEq] at hsettle
      obtain ⟨rfl, rfl⟩ := hsettle
      cases hgrant : around.grant? placeholder with
      | some granted =>
          rw [note_of_grant hgrant]
          exact hstill.isFinal_of_grant hgrant around rfl source path before
      | none =>
          rw [hgrant] at h
          exact h
  | @template pattern arguments hjoin hnames hordinary _ ih =>
      obtain ⟨done, between, text, filling, rfl, hrefills⟩ := exists_refills
        (fun name hname hown => hnames name (Form.mem_uses_substitution.2 ⟨hname, hown⟩)) hordinary h
      exact hrefills.again hstill hjoin (hrefills.thread.again fun hmem hstep => ih _ hmem hstep)

private theorem forall_isFinal_of_thread {parts done : Fields Value} {place : String → Path}
    (h : ∀ part ∈ parts, ∀ {path before w after},
      part.2.Rewrites (around.rule source) path before w after → after.IsClean →
        w.IsFinal around.config)
    (hthread : Thread (fun key => Rewrites (around.rule source) (place key)) parts before done after)
    (hclean : after.IsClean) : ∀ part ∈ done, part.2.IsFinal around.config := by
  intro part hpart
  obtain ⟨x, n, m, hx, hstep, -, hm⟩ := hthread.exists_of_mem_right
    (fun _ hstep => show Outcome.GrowsTo around _ _ from growsTo_rewrites hstep) hpart
  exact h _ hx hstep (hm.isClean hclean)

/-- What a pass leaves without notes is final. -/
theorem isFinal_of_isClean (hstill : around.Still splicing) (hv : v.IsTame around.config splicing)
    (h : v.Rewrites (around.rule source) path before w after) (hclean : after.IsClean) :
    w.IsFinal around.config := by
  induction hv generalizing path before w after with
  | scalar s =>
      obtain ⟨rfl, -⟩ := rewrites_scalar_iff.1 h
      exact isFinal_scalar s
  | @ordinary v hv hordinary _ ih =>
      obtain ⟨parts, rfl, hthread⟩ := (rewrites_of_not_isReserved hv hordinary).1 h
      have hkeys := hthread.keys_eq
      refine isFinal_of_children (by rw [isCompound_withChildren, hv])
        (by rw [isReserved_withChildren hkeys, hordinary]) ?_
      rw [children_withChildren hkeys]
      exact forall_isFinal_of_thread (fun part hpart => ih part hpart) hthread hclean
  | @target v form placeholder hform hplaceholder =>
      have hsettle := (rewrites_target_iff hform (Form.placeholder?_eq_some hplaceholder)).1 h
      rw [settle_target_eq hplaceholder, Prod.mk.injEq] at hsettle
      obtain ⟨rfl, rfl⟩ := hsettle
      cases hgrant : around.grant? placeholder with
      | some granted => exact hstill.isFinal_of_grant hgrant
      | none => exact (isFinal_target_iff hform hplaceholder).2 (isExempt_of_isClean_note hgrant hclean)
  | @template pattern arguments hjoin hnames hordinary _ ih =>
      obtain ⟨done, between, text, filling, rfl, hrefills⟩ := exists_refills
        (fun name hname hown => hnames name (Form.mem_uses_substitution.2 ⟨hname, hown⟩)) hordinary h
      rcases hrefills.result with ⟨-, -, rfl⟩ | ⟨hplain, all, hgetD, rfl, -⟩
      · exact isFinal_scalar _
      · have hgrows := growsTo_fill around source path pattern (.start (some done) between)
        rw [hrefills.fill] at hgrows
        have hdone := forall_isFinal_of_thread (fun argument hargument => ih argument hargument)
          hrefills.thread (hgrows.outcome.isClean hclean)
        obtain ⟨added, hadded, hall⟩ := hrefills.added
        refine isFinal_template (hgetD ▸ hrefills.ordinary) ?arguments ?pattern (hgetD ▸ hplain)
        case arguments =>
          rw [hgetD, hadded]
          refine List.forall_mem_append.2 ⟨hdone, fun argument hargument => ?_⟩
          obtain ⟨target, htarget, hvalue⟩ := hall argument hargument
          exact hvalue ▸ hstill.final target htarget
        case pattern =>
          rw [hgetD]
          exact isInert_fill hstill hjoin hrefills.asks hrefills.fill hclean

end Surroundings

end StackLinker
