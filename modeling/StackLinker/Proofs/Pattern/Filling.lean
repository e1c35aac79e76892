import Mathlib.Order.Defs.Unbundled
import StackLinker.Proofs.Pattern.Reading

/-!
# Filled patterns

What a pattern is made of when it has been filled and is read again: the placeholders that were not
replaced, and the pieces of the texts that were put in, in the same order (`pieces_fill`).  This
needs that the texts that are put in, which `insertions` lists, are closed, and that either the
pattern is spaced or the texts are solid.

The states of the answers are threaded through the pattern, so there are two ways to follow them.
If the answers only move the state upwards, each placeholder is asked about in a state between the
first and the last (`of_mem_insertions`, `replacement_subset_filledPieces`, `of_mem_filledPieces`);
and what each answer preserves, the whole filling preserves, of one state (`fillPieces_invariant`)
and of two (`fillPieces_relates`).
-/

namespace StackLinker.Pattern

variable {σ : Type}

/-- The pieces that come into the place of a hole, with the answer to its placeholder. -/
def replacement (inner : List Char) : Option String → List Piece
  | none => [.hole inner]
  | some text => pieces text

/-- The pieces of a pattern after filling: holes give way to what comes into their place. -/
def filledPieces (answer : Placeholder → σ → Option String × σ) : List Piece → σ → List Piece
  | [], _ => []
  | .char c :: rest, state => .char c :: filledPieces answer rest state
  | .hole inner :: rest, state =>
    match Placeholder.ofHole? inner with
    | none => .hole inner :: filledPieces answer rest state
    | some placeholder =>
      replacement inner (answer placeholder state).1 ++
        filledPieces answer rest (answer placeholder state).2

/-- The texts that are put into a pattern. -/
def insertions (answer : Placeholder → σ → Option String × σ) : List Piece → σ → List String
  | [], _ => []
  | .char _ :: rest, state => insertions answer rest state
  | .hole inner :: rest, state =>
    match Placeholder.ofHole? inner with
    | none => insertions answer rest state
    | some placeholder =>
      (answer placeholder state).1.toList ++ insertions answer rest (answer placeholder state).2

theorem fillPieces_map_char (answer : Placeholder → σ → Option String × σ) (cs : List Char)
    (state : σ) : fillPieces answer (cs.map .char) state = (cs, state) := by
  induction cs with
  | nil => rfl
  | cons c cs ih => simp [fillPieces, ih]

theorem filledPieces_map_char (answer : Placeholder → σ → Option String × σ) (cs : List Char)
    (state : σ) : filledPieces answer (cs.map .char) state = cs.map .char := by
  induction cs with
  | nil => rfl
  | cons c cs ih => simp [filledPieces, ih]

/-- A pattern that is nothing but a placeholder gives way to the answer. -/
theorem fill_text (answer : Placeholder → σ → Option String × σ) {placeholder : Placeholder}
    (hbrace : '}' ∉ inner placeholder)
    (hread : Placeholder.ofHole? (inner placeholder) = some placeholder) (state : σ) :
    fill answer placeholder.text state =
      ((answer placeholder state).1.getD placeholder.text, (answer placeholder state).2) := by
  have hrender : (Piece.hole (inner placeholder)).render = placeholder.text.toList := by
    rw [toList_text]
    rfl
  rw [fill, pieces_text hbrace]
  cases hanswer : (answer placeholder state).1 <;>
    simp [fillPieces, hread, hanswer, hrender]

variable {answer : Placeholder → σ → Option String × σ}

/-- Pieces are filled one part after the other. -/
theorem fillPieces_append (before after : List Piece) (state : σ) :
    fillPieces answer (before ++ after) state =
      ((fillPieces answer before state).1 ++
          (fillPieces answer after (fillPieces answer before state).2).1,
        (fillPieces answer after (fillPieces answer before state).2).2) := by
  induction before generalizing state with
  | nil => rfl
  | cons piece rest ih =>
      cases piece with
      | char c => simp [fillPieces, ih]
      | hole inner =>
          cases hread : Placeholder.ofHole? inner with
          | none => simp [fillPieces, hread, ih]
          | some placeholder => simp [fillPieces, hread, ih]

/-- A filled pattern is written piece by piece. -/
theorem flatMap_render_filledPieces (before : List Piece) (state : σ) :
    (filledPieces answer before state).flatMap Piece.render =
      (fillPieces answer before state).1 := by
  induction before generalizing state with
  | nil => rfl
  | cons piece rest ih =>
      cases piece with
      | char c => simp [filledPieces, fillPieces, Piece.render, ih]
      | hole inner =>
          cases hread : Placeholder.ofHole? inner with
          | none => simp [filledPieces, fillPieces, hread, ih]
          | some placeholder =>
              cases htext : (answer placeholder state).1 <;>
                simp [filledPieces, fillPieces, hread, htext, replacement, pieces,
                  flatMap_render_pieces, ih]

private theorem exists_cons_of_isSolid {chars : List Char} (h : isSolid chars = true) :
    ∃ c rest, chars = c :: rest ∧ c ≠ '{' := by
  cases chars with
  | nil => simp [isSolid] at h
  | cons c rest => exact ⟨c, rest, rfl, by simpa [isSolid] using h⟩

/-- What stands behind a literal dollar sign is not empty and starts with no brace after filling. -/
private theorem isSolid_fillPieces {rest : List Char} (hrest : isSolid rest = true)
    {state : σ} (hjoin : isSpaced (.char '$' :: piecesFrom none rest) = true ∨
      ∀ text ∈ insertions answer (piecesFrom none rest) state, isSolid text.toList = true) :
    isSolid (fillPieces answer (piecesFrom none rest) state).1 = true := by
  induction rest using reading_induction with
  | nil => simp [isSolid] at hrest
  | char c rest hc ih =>
      rw [piecesFrom_char hc]
      exact hrest
  | unclosed inner hinner =>
      rw [piecesFrom_unclosed hinner, fillPieces_map_char]
      rfl
  | hole inner rest hinner ih =>
      rw [piecesFrom_hole hinner] at hjoin ⊢
      rcases hjoin with hspaced | hsolid
      · simp [isSpaced, List.isChain_cons_cons, Piece.isHole] at hspaced
      · simp only [fillPieces]
        split
        · rfl
        · rename_i placeholder hhole
          cases htext : (answer placeholder state).1 with
          | none => rfl
          | some text =>
              have hmem : text ∈ insertions answer (.hole inner :: piecesFrom none rest) state := by
                simp [insertions, hhole, htext]
              obtain ⟨c, chars, hchars, hc⟩ := exists_cons_of_isSolid (hsolid text hmem)
              simpa [hchars, isSolid] using hc

private theorem piecesFrom_fillPieces {text : List Char} {state : σ}
    (hclosed : ∀ filler ∈ insertions answer (piecesFrom none text) state, isClosed filler = true)
    (hjoin : isSpaced (piecesFrom none text) = true ∨
      ∀ filler ∈ insertions answer (piecesFrom none text) state, isSolid filler.toList = true) :
    piecesFrom none (fillPieces answer (piecesFrom none text) state).1 =
      filledPieces answer (piecesFrom none text) state := by
  induction text using reading_induction generalizing state with
  | nil => rfl
  | char c rest hc ih =>
      rw [piecesFrom_char hc] at hclosed hjoin ⊢
      simp only [fillPieces, filledPieces]
      rw [piecesFrom_char, ih hclosed (hjoin.imp_left isSpaced_of_cons)]
      -- The character does not make an opening with what stands behind it now.
      rintro ⟨rfl, hhead⟩
      cases rest with
      | nil => simp [piecesFrom, fillPieces] at hhead
      | cons d rest =>
          have hsolid := isSolid_fillPieces (by simpa [isSolid] using hc) hjoin
          obtain ⟨e, chars, hchars, he⟩ := exists_cons_of_isSolid hsolid
          rw [hchars] at hhead
          exact he (by simpa using hhead)
  | hole inner rest hinner ih =>
      rw [piecesFrom_hole hinner] at hclosed hjoin ⊢
      have hkept : ∀ later : List Char, piecesFrom none ((Piece.hole inner).render ++ later) =
          .hole inner :: piecesFrom none later := by
        intro later
        simpa [Piece.render] using piecesFrom_hole hinner later
      simp only [fillPieces, filledPieces]
      simp only [insertions] at hclosed hjoin
      cases hhole : Placeholder.ofHole? inner with
      | none =>
          simp only [hhole] at hclosed hjoin
          simp only [hkept, ih hclosed (hjoin.imp_left isSpaced_of_cons)]
      | some placeholder =>
          simp only [hhole, List.mem_append, or_imp, forall_and] at hclosed hjoin
          have hrest := ih hclosed.2 (hjoin.imp isSpaced_of_cons And.right)
          simp only [replacement]
          cases htext : (answer placeholder state).1 with
          | none => simp [hkept, hrest]
          | some filler =>
              have hfiller : isClosed filler = true := hclosed.1 filler (by simp [htext])
              simp [piecesFrom_append hfiller, hrest, pieces]
  | unclosed inner hinner =>
      rw [piecesFrom_unclosed hinner, fillPieces_map_char, filledPieces_map_char,
        piecesFrom_unclosed hinner]

/-- Reading a filled pattern finds the pieces that came into the places of the holes. -/
theorem pieces_fill {pattern : String} {state : σ}
    (hclosed : ∀ filler ∈ insertions answer (pieces pattern) state, isClosed filler = true)
    (hjoin : isSpaced (pieces pattern) = true ∨
      ∀ filler ∈ insertions answer (pieces pattern) state, isSolid filler.toList = true) :
    pieces (fill answer pattern state).1 = filledPieces answer (pieces pattern) state := by
  unfold fill pieces
  rw [String.toList_ofList]
  exact piecesFrom_fillPieces hclosed hjoin

/-! ## What filling keeps of a pattern -/

/-- Filling a solid pattern with solid texts leaves it solid. -/
theorem isSolid_fill {pattern : String} (hpattern : isSolid pattern.toList = true) {state : σ}
    (hsolid : ∀ filler ∈ insertions answer (pieces pattern) state, isSolid filler.toList = true) :
    isSolid (fill answer pattern state).1.toList = true := by
  unfold fill
  rw [String.toList_ofList]
  exact isSolid_fillPieces hpattern (Or.inr hsolid)

/-- Filling a closed pattern with closed texts leaves it closed, unless an empty text, or one that
starts with a brace, comes behind a dollar sign. -/
theorem isClosed_fill {pattern : String} (hpattern : isClosed pattern = true) {state : σ}
    (hclosed : ∀ filler ∈ insertions answer (pieces pattern) state, isClosed filler = true)
    (hjoin : isSpaced (pieces pattern) = true ∨
      ∀ filler ∈ insertions answer (pieces pattern) state, isSolid filler.toList = true) :
    isClosed (fill answer pattern state).1 = true := by
  unfold fill isClosed
  rw [String.toList_ofList]
  unfold isClosed at hpattern
  unfold pieces at hclosed hjoin ⊢
  generalize pattern.toList = text at hpattern hclosed hjoin ⊢
  induction text using reading_induction generalizing state with
  | nil => rfl
  | char c rest hc ih =>
      rw [piecesFrom_char hc] at hclosed hjoin ⊢
      obtain ⟨hnext, hpattern⟩ := (endsOutside_char_iff hc).1 hpattern
      have hrest := ih hpattern hclosed (hjoin.imp_left isSpaced_of_cons)
      simp only [fillPieces]
      by_cases hdollar : c = '$'
      · -- Behind a dollar sign stands a character other than an opening brace.
        subst hdollar
        obtain ⟨d, tail, rfl⟩ := List.exists_cons_of_ne_nil fun hnil => hnext hnil rfl
        have hsolid := isSolid_fillPieces (by simpa [isSolid] using hc) hjoin
        obtain ⟨e, chars, hchars, he⟩ := exists_cons_of_isSolid hsolid
        rw [hchars] at hrest ⊢
        rw [endsOutside_char (by simpa using he), hrest]
        simp
      · rw [endsOutside_char (fun h => hdollar h.1), hrest]
        simp [hdollar]
  | hole inner rest hinner ih =>
      rw [endsOutside_hole hinner] at hpattern
      rw [piecesFrom_hole hinner] at hclosed hjoin ⊢
      have hkept : ∀ later : List Char, endsOutside false later = true →
          endsOutside false ((Piece.hole inner).render ++ later) = true := by
        intro later hlater
        rw [show (Piece.hole inner).render ++ later = '$' :: '{' :: (inner ++ '}' :: later) by
          simp [Piece.render], endsOutside_hole hinner, hlater]
      simp only [fillPieces]
      simp only [insertions] at hclosed hjoin
      cases hhole : Placeholder.ofHole? inner with
      | none =>
          simp only [hhole] at hclosed hjoin
          exact hkept _ (ih hpattern hclosed (hjoin.imp_left isSpaced_of_cons))
      | some placeholder =>
          simp only [hhole, List.mem_append, or_imp, forall_and] at hclosed hjoin
          have hrest := ih hpattern hclosed.2 (hjoin.imp isSpaced_of_cons And.right)
          cases htext : (answer placeholder state).1 with
          | none => simpa [htext] using hkept _ hrest
          | some filler =>
              have hfiller : isClosed filler = true := hclosed.1 filler (by simp [htext])
              simp only [htext, Option.map_some, Option.getD_some]
              rw [endsOutside_append hfiller]
              exact hrest
  | unclosed inner hinner => simp [endsOutside_unclosed hinner] at hpattern

/-- Filling a spaced pattern with closed and spaced texts leaves it spaced. -/
theorem isSpaced_filledPieces {before : List Piece} (hbefore : isSpaced before = true) {state : σ}
    (hfillers : ∀ filler ∈ insertions answer before state,
      isClosed filler = true ∧ isSpaced (pieces filler) = true) :
    isSpaced (filledPieces answer before state) = true := by
  -- The induction needs to know which piece stands in front.
  suffices hchain : ∀ first : Piece, isSpaced (first :: before) = true →
      isSpaced (first :: filledPieces answer before state) = true by
    have hfront : isSpaced (.hole [] :: before) = true := by
      cases before with
      | nil => rfl
      | cons piece rest => exact isSpaced_cons (by simp) hbefore
    exact isSpaced_of_cons (hchain (.hole []) hfront)
  clear hbefore
  induction before generalizing state with
  | nil => exact fun _ h => h
  | cons piece rest ih =>
      intro first h
      obtain ⟨hfirst, -⟩ := isSpaced_cons_cons_iff.1 h
      have hrest : ∀ {later : σ}, (∀ filler ∈ insertions answer rest later,
          isClosed filler = true ∧ isSpaced (pieces filler) = true) →
          isSpaced (piece :: filledPieces answer rest later) = true :=
        fun hlater => ih hlater piece (isSpaced_of_cons h)
      cases piece with
      | char c => exact isSpaced_cons_cons_iff.2 ⟨hfirst, hrest hfillers⟩
      | hole inner =>
          simp only [filledPieces]
          simp only [insertions] at hfillers
          cases hhole : Placeholder.ofHole? inner with
          | none =>
              simp only [hhole] at hfillers
              exact isSpaced_cons_cons_iff.2 ⟨hfirst, hrest hfillers⟩
          | some placeholder =>
              simp only [hhole, List.mem_append, or_imp, forall_and] at hfillers
              have hlater := hrest fun filler hmem => ⟨hfillers.1.2 filler hmem,
                hfillers.2.2 filler hmem⟩
              simp only [replacement]
              cases htext : (answer placeholder state).1 with
              | none => exact isSpaced_cons_cons_iff.2 ⟨hfirst, hlater⟩
              | some filler =>
                  have hmem : filler ∈ (answer placeholder state).1.toList := by simp [htext]
                  have hdollar : first ≠ .char '$' := by
                    intro hdollar
                    simpa [Piece.isHole] using hfirst hdollar
                  exact isSpaced_cons hdollar (isSpaced_append (hfillers.2.1 filler hmem)
                    (getLast?_piecesFrom_ne (hfillers.1.1 filler hmem)) (isSpaced_of_cons hlater))

/-- Every piece of a filled pattern was there before or belongs to a text that was put in. -/
theorem mem_filledPieces {before : List Piece} {piece : Piece} {state : σ}
    (h : piece ∈ filledPieces answer before state) :
    piece ∈ before ∨ ∃ text ∈ insertions answer before state, piece ∈ pieces text := by
  induction before generalizing state with
  | nil => simp [filledPieces] at h
  | cons first rest ih =>
      cases first with
      | char c =>
          rcases List.mem_cons.1 h with rfl | h
          · exact Or.inl List.mem_cons_self
          · exact (ih h).imp_left (List.mem_cons_of_mem _)
      | hole inner =>
          simp only [filledPieces] at h
          simp only [insertions]
          cases hhole : Placeholder.ofHole? inner with
          | none =>
              simp only [hhole, List.mem_cons] at h
              rcases h with rfl | h
              · exact Or.inl List.mem_cons_self
              · exact (ih h).imp_left (List.mem_cons_of_mem _)
          | some placeholder =>
              simp only [hhole, List.mem_append] at h
              rcases h with h | h
              · cases htext : (answer placeholder state).1 with
                | none =>
                    rw [htext, replacement, List.mem_singleton] at h
                    exact Or.inl (h ▸ List.mem_cons_self)
                | some text =>
                    rw [htext] at h
                    exact Or.inr ⟨text, by simp [htext], h⟩
              · rcases ih h with hold | ⟨text, hmem, hpiece⟩
                · exact Or.inl (List.mem_cons_of_mem _ hold)
                · exact Or.inr ⟨text, List.mem_append_right _ hmem, hpiece⟩

/-! ## The states of the answers -/

section States

variable {le : σ → σ → Prop} [IsPreorder σ le]

theorem fillPieces_grows (hle : ∀ placeholder state, le state (answer placeholder state).2)
    (pieces : List Piece) (state : σ) : le state (fillPieces answer pieces state).2 := by
  induction pieces generalizing state with
  | nil => exact refl_of le state
  | cons piece rest ih =>
      cases piece with
      | char c => exact ih state
      | hole inner =>
          simp only [fillPieces]
          split
          · exact ih state
          · exact trans_of le (hle _ state) (ih _)

/-- Every text that is put in is the answer to a placeholder of the pattern. -/
theorem of_mem_insertions (hle : ∀ placeholder state, le state (answer placeholder state).2)
    {pieces : List Piece} {text : String} {state : σ}
    (hmem : text ∈ insertions answer pieces state) :
    ∃ inner placeholder asked, .hole inner ∈ pieces ∧
      Placeholder.ofHole? inner = some placeholder ∧ le state asked ∧
      (answer placeholder asked).1 = some text := by
  induction pieces generalizing state with
  | nil => simp [insertions] at hmem
  | cons piece rest ih =>
      have hrest : ∀ {later : σ}, le state later → text ∈ insertions answer rest later →
          ∃ inner placeholder asked, .hole inner ∈ piece :: rest ∧
            Placeholder.ofHole? inner = some placeholder ∧ le state asked ∧
            (answer placeholder asked).1 = some text := by
        intro later hlater hmem
        obtain ⟨inner, placeholder, asked, hhole, hread, hfrom, htext⟩ := ih hmem
        exact ⟨inner, placeholder, asked, List.mem_cons_of_mem _ hhole, hread,
          trans_of le hlater hfrom, htext⟩
      cases piece with
      | char c => exact hrest (refl_of le state) hmem
      | hole inner =>
          simp only [insertions] at hmem
          split at hmem
          · exact hrest (refl_of le state) hmem
          · rename_i placeholder hread
            rcases List.mem_append.1 hmem with hmem | hmem
            · exact ⟨inner, placeholder, state, List.mem_cons_self, hread, refl_of le state,
                Option.mem_toList.1 hmem⟩
            · exact hrest (hle placeholder state) hmem

/-- Each placeholder of a pattern is asked about, and its answer is in the filled pattern. -/
theorem replacement_subset_filledPieces
    (hle : ∀ placeholder state, le state (answer placeholder state).2) {pieces : List Piece}
    {inner : List Char} {placeholder : Placeholder} (hmem : .hole inner ∈ pieces)
    (hph : Placeholder.ofHole? inner = some placeholder) (state : σ) :
    ∃ asked, le state asked ∧
      le (answer placeholder asked).2 (fillPieces answer pieces state).2 ∧
      replacement inner (answer placeholder asked).1 ⊆ filledPieces answer pieces state := by
  induction pieces generalizing state with
  | nil => simp at hmem
  | cons piece rest ih =>
      rcases List.mem_cons.1 hmem with rfl | hrest
      · refine ⟨state, refl_of le state, ?_, ?_⟩
        · simpa [fillPieces, hph] using fillPieces_grows hle rest _
        · simp [filledPieces, hph]
      · cases piece with
        | char c =>
            obtain ⟨asked, hfrom, hto, hsub⟩ := ih hrest state
            exact ⟨asked, hfrom, hto, fun q hq => List.mem_cons_of_mem _ (hsub hq)⟩
        | hole other =>
            cases hother : Placeholder.ofHole? other with
            | none =>
                obtain ⟨asked, hfrom, hto, hsub⟩ := ih hrest state
                refine ⟨asked, hfrom, by simpa [fillPieces, hother] using hto, fun q hq => ?_⟩
                simp [filledPieces, hother, hsub hq]
            | some ph =>
                obtain ⟨asked, hfrom, hto, hsub⟩ := ih hrest (answer ph state).2
                refine ⟨asked, trans_of le (hle ph state) hfrom,
                  by simpa [fillPieces, hother] using hto, fun q hq => ?_⟩
                simp [filledPieces, hother, hsub hq]

/-- Every piece of a filled pattern was there before and asks for nothing, or is a part of an
answer. -/
theorem of_mem_filledPieces
    (hle : ∀ placeholder state, le state (answer placeholder state).2) {pieces : List Piece}
    {piece : Piece} {state : σ} (hmem : piece ∈ filledPieces answer pieces state) :
    (piece ∈ pieces ∧ ∀ inner, piece = .hole inner → Placeholder.ofHole? inner = none) ∨
      ∃ inner placeholder asked, .hole inner ∈ pieces ∧
        Placeholder.ofHole? inner = some placeholder ∧ le state asked ∧
        le (answer placeholder asked).2 (fillPieces answer pieces state).2 ∧
        piece ∈ replacement inner (answer placeholder asked).1 := by
  induction pieces generalizing state with
  | nil => simp [filledPieces] at hmem
  | cons first rest ih =>
      cases first with
      | char c =>
          rcases List.mem_cons.1 hmem with rfl | hmem
          · exact Or.inl ⟨List.mem_cons_self, by simp⟩
          · rcases ih hmem with ⟨hold, hnone⟩ | ⟨inner, ph, asked, hold, hrest⟩
            · exact Or.inl ⟨List.mem_cons_of_mem _ hold, hnone⟩
            · exact Or.inr ⟨inner, ph, asked, List.mem_cons_of_mem _ hold, hrest⟩
      | hole inner =>
          cases hinner : Placeholder.ofHole? inner with
          | none =>
              simp only [filledPieces, hinner, List.mem_cons] at hmem
              rcases hmem with rfl | hmem
              · refine Or.inl ⟨List.mem_cons_self, fun other hother => ?_⟩
                rw [← Piece.hole.inj hother, hinner]
              · rcases ih hmem with ⟨hold, hnone⟩ | ⟨other, ph, asked, hold, hph, hfrom, hto, hq⟩
                · exact Or.inl ⟨List.mem_cons_of_mem _ hold, hnone⟩
                · exact Or.inr ⟨other, ph, asked, List.mem_cons_of_mem _ hold, hph, hfrom,
                    by simpa [fillPieces, hinner] using hto, hq⟩
          | some placeholder =>
              simp only [filledPieces, hinner, List.mem_append] at hmem
              rcases hmem with hmem | hmem
              · exact Or.inr ⟨inner, placeholder, state, List.mem_cons_self, hinner,
                  refl_of le state,
                  by simpa [fillPieces, hinner] using fillPieces_grows hle rest _, hmem⟩
              · rcases ih hmem with ⟨hold, hnone⟩ | ⟨other, ph, asked, hold, hph, hfrom, hto, hq⟩
                · exact Or.inl ⟨List.mem_cons_of_mem _ hold, hnone⟩
                · exact Or.inr ⟨other, ph, asked, List.mem_cons_of_mem _ hold, hph,
                    trans_of le (hle placeholder state) hfrom,
                    by simpa [fillPieces, hinner] using hto, hq⟩

end States

/-- Answers that put in the same texts from related states fill a pattern with the same text. -/
theorem fillPieces_relates {τ : Type} {other : Placeholder → τ → Option String × τ}
    {R : σ → τ → Prop} {pieces : List Piece}
    (hstep : ∀ inner placeholder state twin, .hole inner ∈ pieces →
      Placeholder.ofHole? inner = some placeholder → R state twin →
      (other placeholder twin).1 = (answer placeholder state).1 ∧
        R (answer placeholder state).2 (other placeholder twin).2)
    {state : σ} {twin : τ} (hstart : R state twin) :
    (fillPieces other pieces twin).1 = (fillPieces answer pieces state).1 ∧
      R (fillPieces answer pieces state).2 (fillPieces other pieces twin).2 := by
  induction pieces generalizing state twin with
  | nil => exact ⟨rfl, hstart⟩
  | cons piece rest ih =>
      have hrest := fun {state twin} => @ih (fun inner placeholder state twin hmem =>
        hstep inner placeholder state twin (List.mem_cons_of_mem _ hmem)) state twin
      cases piece with
      | char c =>
          obtain ⟨htext, hstate⟩ := hrest hstart
          exact ⟨by simp only [fillPieces, htext], hstate⟩
      | hole inner =>
          simp only [fillPieces]
          split
          · obtain ⟨htext, hstate⟩ := hrest hstart
            exact ⟨by simp only [htext], hstate⟩
          · rename_i placeholder hhole
            obtain ⟨hanswer, hbetween⟩ :=
              hstep inner placeholder state twin List.mem_cons_self hhole hstart
            obtain ⟨htext, hstate⟩ := hrest hbetween
            exact ⟨by simp only [hanswer, htext], hstate⟩

/-- What the answers to the placeholders of a pattern preserve, filling the pattern preserves. -/
theorem fillPieces_invariant {Inv : σ → Prop} {pieces : List Piece}
    (hstep : ∀ inner placeholder state, .hole inner ∈ pieces →
      Placeholder.ofHole? inner = some placeholder → Inv state →
      Inv (answer placeholder state).2) {state : σ} (hstart : Inv state) :
    Inv (fillPieces answer pieces state).2 := by
  induction pieces generalizing state with
  | nil => exact hstart
  | cons piece rest ih =>
      have hrest := fun {state} => @ih (fun inner placeholder state hmem =>
        hstep inner placeholder state (List.mem_cons_of_mem _ hmem)) state
      cases piece with
      | char c => exact hrest hstart
      | hole inner =>
          simp only [fillPieces]
          split
          · exact hrest hstart
          · rename_i placeholder hhole
            exact hrest (hstep inner placeholder state List.mem_cons_self hhole hstart)

end StackLinker.Pattern
