import StackLinker.Proofs.Pattern.Filling

/-!
# Answers that depend on the placeholder alone

`Pattern.replace` fills a pattern with answers that have no state.  Then every piece gives way to
something that depends on the piece alone (`replacePiece`), and the replaced pattern is read as what
came into the places of its pieces (`pieces_replace`).  If the texts that are put in have no holes,
the holes that are left are those without an answer (`hole_mem_pieces_replace`), and answering them
later comes to the same as answering all at once (`replace_replace`).

A text without dollar signs has no holes and can be followed by anything.
-/

namespace StackLinker.Pattern

variable {answer other : Placeholder → Option String} {pattern text : String}

/-- What comes into the place of a piece. -/
def replacePiece (answer : Placeholder → Option String) : Piece → List Piece
  | .char c => [.char c]
  | .hole inner =>
    match Placeholder.ofHole? inner with
    | none => [.hole inner]
    | some placeholder => replacement inner (answer placeholder)

theorem replacePiece_of_read {inner : List Char} {placeholder : Placeholder}
    (h : Placeholder.ofHole? inner = some placeholder) :
    replacePiece answer (.hole inner) = replacement inner (answer placeholder) := by
  simp [replacePiece, h]

/-- A piece stays, or it is a hole that gives way to a text. -/
theorem replacePiece_cases (answer : Placeholder → Option String) (piece : Piece) :
    (replacePiece answer piece = [piece] ∧ ∀ inner placeholder, piece = .hole inner →
        Placeholder.ofHole? inner = some placeholder → answer placeholder = none) ∨
      ∃ inner placeholder text, piece = .hole inner ∧
        Placeholder.ofHole? inner = some placeholder ∧ answer placeholder = some text ∧
          replacePiece answer piece = pieces text := by
  cases piece with
  | char c => exact Or.inl ⟨rfl, by simp⟩
  | hole inner =>
      cases hread : Placeholder.ofHole? inner with
      | none =>
          refine Or.inl ⟨by simp [replacePiece, hread], ?_⟩
          rintro _ placeholder ⟨⟩ hother
          simp [hread] at hother
      | some placeholder =>
          rw [replacePiece_of_read hread]
          cases hanswer : answer placeholder with
          | none =>
              refine Or.inl ⟨rfl, ?_⟩
              rintro _ read ⟨⟩ hother
              rwa [← Option.some.inj (hread.symm.trans hother)]
          | some text => exact Or.inr ⟨inner, placeholder, text, rfl, hread, hanswer, rfl⟩

theorem filledPieces_stateless (pieces : List Piece) :
    filledPieces (fun placeholder (_ : Unit) => (answer placeholder, ())) pieces () =
      pieces.flatMap (replacePiece answer) := by
  induction pieces with
  | nil => rfl
  | cons piece rest ih =>
      cases piece with
      | char c => simp [filledPieces, replacePiece, ih]
      | hole inner =>
          cases hread : Placeholder.ofHole? inner <;>
            simp [filledPieces, replacePiece, hread, ih]

/-- A replaced pattern is written piece by piece. -/
theorem toList_replace (answer : Placeholder → Option String) (pattern : String) :
    (replace answer pattern).toList =
      ((pieces pattern).flatMap (replacePiece answer)).flatMap Piece.render := by
  rw [replace, fill, String.toList_ofList, ← flatMap_render_filledPieces, filledPieces_stateless]

/-- Only the answers to the placeholders of a pattern matter. -/
theorem replace_congr (h : ∀ inner placeholder, .hole inner ∈ pieces pattern →
      Placeholder.ofHole? inner = some placeholder → answer placeholder = other placeholder) :
    replace answer pattern = replace other pattern := by
  apply String.toList_injective
  rw [toList_replace, toList_replace]
  refine congrArg _ (List.flatMap_congr fun piece hpiece => ?_)
  cases piece with
  | char c => rfl
  | hole inner =>
      cases hread : Placeholder.ofHole? inner with
      | none => simp [replacePiece, hread]
      | some placeholder =>
          rw [replacePiece_of_read hread, replacePiece_of_read hread,
            h inner placeholder hpiece hread]

/-- Without answers a pattern stays as it is. -/
theorem replace_eq_self (h : ∀ inner placeholder, .hole inner ∈ pieces pattern →
      Placeholder.ofHole? inner = some placeholder → answer placeholder = none) :
    replace answer pattern = pattern := by
  have hpiece : ∀ piece ∈ pieces pattern, replacePiece answer piece = [piece] := by
    intro piece hpiece
    rcases replacePiece_cases answer piece with
      ⟨hstays, -⟩ | ⟨inner, placeholder, text, rfl, hread, htext, -⟩
    · exact hstays
    · simp [h inner placeholder hpiece hread] at htext
  apply String.toList_injective
  rw [toList_replace, List.flatMap_congr hpiece, List.flatMap_singleton', pieces,
    flatMap_render_pieces]

/-! ## Reading a replaced pattern -/

/-- A replaced pattern is read as what came into the places of its pieces, if the texts that are put
in can be followed by anything. -/
theorem pieces_replace
    (htexts : ∀ inner placeholder text, .hole inner ∈ pieces pattern →
      Placeholder.ofHole? inner = some placeholder → answer placeholder = some text →
        isClosed text = true)
    (hjoin : isSpaced (pieces pattern) = true ∨
      ∀ inner placeholder text, .hole inner ∈ pieces pattern →
        Placeholder.ofHole? inner = some placeholder → answer placeholder = some text →
          isSolid text.toList = true) :
    pieces (replace answer pattern) = (pieces pattern).flatMap (replacePiece answer) := by
  have hinserted : ∀ text ∈ insertions (fun placeholder (_ : Unit) => (answer placeholder, ()))
      (pieces pattern) (), ∃ inner placeholder, .hole inner ∈ pieces pattern ∧
        Placeholder.ofHole? inner = some placeholder ∧ answer placeholder = some text := by
    intro text hmem
    obtain ⟨inner, placeholder, _, hhole, hread, -, htext⟩ :=
      @of_mem_insertions _ _ Eq _ (fun _ _ => rfl) _ _ _ hmem
    exact ⟨inner, placeholder, hhole, hread, htext⟩
  rw [← filledPieces_stateless]
  refine pieces_fill (fun text hmem => ?_) (hjoin.imp_right fun hsolid text hmem => ?_)
  · obtain ⟨inner, placeholder, hhole, hread, htext⟩ := hinserted text hmem
    exact htexts inner placeholder text hhole hread htext
  · obtain ⟨inner, placeholder, hhole, hread, htext⟩ := hinserted text hmem
    exact hsolid inner placeholder text hhole hread htext

/-- Whether the texts that are put into a pattern have no holes, and the replaced pattern is read
piece by piece. -/
structure Accepts (answer : Placeholder → Option String) (pattern : String) : Prop where
  pieces : pieces (replace answer pattern) = (pieces pattern).flatMap (replacePiece answer)
  texts : ∀ inner placeholder text, .hole inner ∈ Pattern.pieces pattern →
    Placeholder.ofHole? inner = some placeholder → answer placeholder = some text →
      hasHoles text = false

/-- Texts that can be followed by anything do not change how a pattern is read. -/
theorem accepts_of_isClosed
    (htexts : ∀ inner placeholder text, .hole inner ∈ pieces pattern →
      Placeholder.ofHole? inner = some placeholder → answer placeholder = some text →
        isClosed text = true ∧ hasHoles text = false)
    (hjoin : isSpaced (pieces pattern) = true ∨
      ∀ inner placeholder text, .hole inner ∈ pieces pattern →
        Placeholder.ofHole? inner = some placeholder → answer placeholder = some text →
          isSolid text.toList = true) : Accepts answer pattern :=
  ⟨pieces_replace (fun inner placeholder text hhole hread htext =>
      (htexts inner placeholder text hhole hread htext).1) hjoin,
    fun inner placeholder text hhole hread htext =>
      (htexts inner placeholder text hhole hread htext).2⟩

theorem hole_notMem_of_hasHoles (h : hasHoles text = false) (inner : List Char) :
    .hole inner ∉ pieces text := by
  rw [hasHoles, List.any_eq_false] at h
  exact fun hmem => h _ hmem rfl

/-- The holes that are left are those without an answer. -/
theorem Accepts.hole_mem_iff (h : Accepts answer pattern) {inner : List Char} :
    .hole inner ∈ Pattern.pieces (replace answer pattern) ↔ .hole inner ∈ Pattern.pieces pattern ∧
      ∀ placeholder, Placeholder.ofHole? inner = some placeholder → answer placeholder = none := by
  rw [h.pieces, List.mem_flatMap]
  constructor
  · rintro ⟨piece, hpiece, hmem⟩
    rcases replacePiece_cases answer piece with
      ⟨hstays, hnone⟩ | ⟨before, placeholder, text, rfl, hread, htext, hgives⟩
    · obtain rfl : .hole inner = piece := by simpa [hstays] using hmem
      exact ⟨hpiece, fun placeholder => hnone inner placeholder rfl⟩
    · rw [hgives] at hmem
      exact absurd hmem
        (hole_notMem_of_hasHoles (h.texts before placeholder text hpiece hread htext) inner)
  · rintro ⟨hmem, hnone⟩
    refine ⟨_, hmem, ?_⟩
    rcases replacePiece_cases answer (.hole inner) with
      ⟨hstays, -⟩ | ⟨_, placeholder, text, hsame, hread, htext, -⟩
    · simp [hstays]
    · rw [← Piece.hole.inj hsame] at hread
      simp [hnone placeholder hread] at htext

/-- Where every hole has an answer, no holes are left. -/
theorem Accepts.hasHoles_replace (h : Accepts answer pattern)
    (hall : ∀ inner, .hole inner ∈ Pattern.pieces pattern → ∃ placeholder text,
      Placeholder.ofHole? inner = some placeholder ∧ answer placeholder = some text) :
    hasHoles (replace answer pattern) = false := by
  rw [hasHoles, List.any_eq_false]
  intro piece hpiece
  cases piece with
  | char c => simp [Piece.isHole]
  | hole inner =>
      obtain ⟨hmem, hnone⟩ := h.hole_mem_iff.1 hpiece
      obtain ⟨placeholder, text, hread, htext⟩ := hall inner hmem
      simp [hnone placeholder hread] at htext

theorem mem_toList_of_char_mem {c : Char} (h : .char c ∈ pieces text) : c ∈ text.toList := by
  rw [← flatMap_render_pieces text.toList]
  exact List.mem_flatMap.2 ⟨_, h, List.mem_singleton_self c⟩

/-- A character between the holes was there before, or belongs to a text that was put in. -/
theorem Accepts.char_mem (h : Accepts answer pattern) {c : Char}
    (hc : .char c ∈ Pattern.pieces (replace answer pattern)) :
    .char c ∈ Pattern.pieces pattern ∨ ∃ inner placeholder text,
      .hole inner ∈ Pattern.pieces pattern ∧ Placeholder.ofHole? inner = some placeholder ∧
        answer placeholder = some text ∧ c ∈ text.toList := by
  rw [h.pieces, List.mem_flatMap] at hc
  obtain ⟨piece, hpiece, hmem⟩ := hc
  rcases replacePiece_cases answer piece with
    ⟨hstays, -⟩ | ⟨inner, placeholder, text, rfl, hread, htext, hgives⟩
  · obtain rfl : .char c = piece := by simpa [hstays] using hmem
    exact Or.inl hpiece
  · rw [hgives] at hmem
    exact Or.inr ⟨inner, placeholder, text, hpiece, hread, htext, mem_toList_of_char_mem hmem⟩

/-- In a text without holes there is nothing to answer. -/
theorem flatMap_replacePiece (h : hasHoles text = false) :
    (pieces text).flatMap (replacePiece answer) = pieces text := by
  have hpiece : ∀ piece ∈ pieces text, replacePiece answer piece = [piece] := by
    intro piece hmem
    cases piece with
    | char c => rfl
    | hole inner => exact absurd hmem (hole_notMem_of_hasHoles h inner)
  rw [List.flatMap_congr hpiece, List.flatMap_singleton']

/-- Answering what is left later comes to the same as answering all at once. -/
theorem Accepts.replace_replace (h : Accepts answer pattern)
    (other : Placeholder → Option String) :
    replace other (replace answer pattern) =
      replace (fun placeholder => (answer placeholder).or (other placeholder)) pattern := by
  have hpiece : ∀ piece ∈ Pattern.pieces pattern,
      (replacePiece answer piece).flatMap (replacePiece other) =
        replacePiece (fun placeholder => (answer placeholder).or (other placeholder)) piece := by
    intro piece hpiece
    cases piece with
    | char c => rfl
    | hole inner =>
        cases hread : Placeholder.ofHole? inner with
        | none => simp [replacePiece, hread]
        | some placeholder =>
            rw [replacePiece_of_read hread, replacePiece_of_read hread]
            cases hanswer : answer placeholder with
            | none => simp [replacement, replacePiece_of_read hread]
            | some text =>
                exact flatMap_replacePiece (h.texts inner placeholder text hpiece hread hanswer)
  apply String.toList_injective
  rw [toList_replace, toList_replace, h.pieces]
  refine congrArg (List.flatMap Piece.render) ?_
  rw [List.flatMap_assoc]
  exact List.flatMap_congr hpiece

/-! ## Texts without dollar signs -/

theorem piecesFrom_of_notMem {text : List Char} (h : '$' ∉ text) :
    piecesFrom none text = text.map .char := by
  induction text with
  | nil => rfl
  | cons c rest ih =>
      simp only [List.mem_cons, not_or] at h
      rw [piecesFrom_char (fun hc => h.1 hc.1.symm), ih h.2, List.map_cons]

theorem hasHoles_of_notMem (h : '$' ∉ text.toList) : hasHoles text = false := by
  rw [hasHoles, pieces, piecesFrom_of_notMem h]
  simp [Piece.isHole]

theorem isClosed_of_notMem (h : '$' ∉ text.toList) : isClosed text = true := by
  unfold isClosed
  generalize text.toList = chars at h
  induction chars with
  | nil => rfl
  | cons c rest ih =>
      simp only [List.mem_cons, not_or] at h
      exact (endsOutside_char_iff fun hc => h.1 hc.1.symm).2 ⟨fun _ => Ne.symm h.1, ih h.2⟩

theorem isSpaced_of_notMem {pieces : List Piece} (h : .char '$' ∉ pieces) :
    isSpaced pieces = true := by
  induction pieces with
  | nil => rfl
  | cons piece rest ih =>
      simp only [List.mem_cons, not_or] at h
      exact isSpaced_cons (Ne.symm h.1) (ih h.2)

/-- Texts without dollar signs do not change how a pattern without literal ones is read. -/
theorem accepts_of_notMem (hdollar : .char '$' ∉ pieces pattern)
    (htexts : ∀ inner placeholder text, .hole inner ∈ pieces pattern →
      Placeholder.ofHole? inner = some placeholder → answer placeholder = some text →
        '$' ∉ text.toList) : Accepts answer pattern :=
  accepts_of_isClosed (fun inner placeholder text hhole hread htext =>
    have hnone := htexts inner placeholder text hhole hread htext
    ⟨isClosed_of_notMem hnone, hasHoles_of_notMem hnone⟩) (Or.inl (isSpaced_of_notMem hdollar))

theorem notMem_of_hasHoles (hholes : hasHoles text = false) (hdollar : .char '$' ∉ pieces text) :
    '$' ∉ text.toList := by
  rw [← flatMap_render_pieces text.toList, List.mem_flatMap]
  rintro ⟨piece, hpiece, hmem⟩
  cases piece with
  | char c =>
      rw [Piece.render, List.mem_singleton] at hmem
      exact hdollar (hmem ▸ hpiece)
  | hole inner => exact hole_notMem_of_hasHoles hholes inner hpiece

end StackLinker.Pattern
