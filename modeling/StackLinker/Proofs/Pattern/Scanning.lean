import StackLinker.Proofs.Pattern.Filling

/-!
# Where the placeholders of a pattern are

Every text has exactly one cut at its placeholders: literal text, a placeholder, literal text, and
so on.  `Scans` says which one.  A placeholder starts at the first opening of the text that is left
and ends at the first closing brace after it; behind the last one no opening is ever closed.  These
two rules decide about dollar signs and braces in other places, and about nested and unterminated
openings.  The same cut comes from a search for leftmost matches that do not overlap
(`scans_iff_matches`).

Filling a pattern goes along this cut.  `Answers` says what comes into the places of the
placeholders: an escape stays, and each other one is asked about once, in its turn, with the state
that the answer before left.  The literal texts and what came into these places are then written
one after the other (`weave`), so an answer is never looked at again, whatever it holds.
-/

namespace StackLinker.Pattern

variable {σ : Type} {text literal inner rest last ending : List Char}
  {parts others : List (List Char × List Char)}

/-! ## Cuts -/

/-- A text is cut into literal texts, each with what stands between the braces of the placeholder
behind it, and the text behind the last placeholder. -/
inductive Scans : List Char → List (List Char × List Char) → List Char → Prop
  /-- No opening is ever closed. -/
  | done {text : List Char}
      (unclosed : ∀ before after, text = before ++ '$' :: '{' :: after → '}' ∉ after) :
      Scans text [] text
  /-- A placeholder starts at the first opening, and ends at the first closing brace after it. -/
  | next {literal inner rest last : List Char} {parts : List (List Char × List Char)}
      (first : ∀ before after, literal ++ '$' :: '{' :: (inner ++ '}' :: rest) =
        before ++ '$' :: '{' :: after → literal.length ≤ before.length)
      (closed : '}' ∉ inner) (tail : Scans rest parts last) :
      Scans (literal ++ '$' :: '{' :: (inner ++ '}' :: rest)) ((literal, inner) :: parts) last

/-- A character in front of a text goes to the literal text, unless it opens a placeholder. -/
private theorem Scans.cons {c : Char} (hc : ¬ (c = '$' ∧ rest.head? = some '{'))
    (h : Scans rest parts last) : ∃ parts last, Scans (c :: rest) parts last := by
  cases h with
  | done unclosed =>
      refine ⟨_, _, .done fun before after heq => ?_⟩
      cases before with
      | nil =>
          obtain ⟨rfl, htail⟩ := List.cons.inj heq
          exact absurd ⟨rfl, congrArg List.head? htail⟩ hc
      | cons d before => exact unclosed before after (List.cons.inj heq).2
  | @next literal inner rest last parts first closed tail =>
      rw [← List.cons_append]
      refine ⟨_, _, .next (fun before after heq => ?_) closed tail⟩
      cases before with
      | nil =>
          obtain ⟨rfl, htail⟩ := List.cons.inj heq
          exact absurd ⟨rfl, congrArg List.head? htail⟩ hc
      | cons d before => exact Nat.succ_le_succ (first before after (List.cons.inj heq).2)

theorem exists_scans (text : List Char) : ∃ parts last, Scans text parts last := by
  induction text using reading_induction with
  | nil => exact ⟨[], [], .done (by simp)⟩
  | char c rest hc ih =>
      obtain ⟨parts, last, h⟩ := ih
      exact h.cons hc
  | hole inner rest hinner ih =>
      obtain ⟨parts, last, h⟩ := ih
      exact ⟨_, _, @Scans.next [] inner rest last parts (by simp) hinner h⟩
  | unclosed inner hinner =>
      refine ⟨[], _, .done fun before after heq hmem => ?_⟩
      have hbrace : '}' ∈ '$' :: '{' :: inner := by
        rw [heq]
        simp [hmem]
      exact hinner (by simpa using hbrace)

theorem Scans.unique (h : Scans text parts last) (hother : Scans text others ending) :
    others = parts ∧ ending = last := by
  induction h generalizing others ending with
  | done unclosed =>
      cases hother with
      | done => exact ⟨rfl, rfl⟩
      | next => exact absurd (by simp) (unclosed _ _ rfl)
  | @next literal inner rest last parts first closed tail ih =>
      generalize htext : literal ++ '$' :: '{' :: (inner ++ '}' :: rest) = text at hother
      cases hother with
      | done unclosed => exact absurd (by simp) (unclosed _ _ htext.symm)
      | @next literal' inner' rest' _ parts' first' closed' tail' =>
          have hlength : literal.length = literal'.length :=
            Nat.le_antisymm (first _ _ htext) (first' _ _ htext.symm)
          obtain ⟨rfl, hbehind⟩ := List.append_inj htext hlength
          simp only [List.cons.injEq, true_and] at hbehind
          -- Both placeholders end at the first closing brace.
          have hcut := Text.cutAt_append closed rest
          rw [hbehind, Text.cutAt_append closed'] at hcut
          obtain ⟨rfl, rfl⟩ := Prod.mk.inj (Option.some.inj hcut)
          obtain ⟨rfl, rfl⟩ := ih tail'
          exact ⟨rfl, rfl⟩

/-! ## Leftmost matches -/

/-- The texts that the expression for placeholders matches. -/
def IsMatch (found : List Char) : Prop :=
  ∃ inner, '}' ∉ inner ∧ found = (Piece.hole inner).render

/-- A text is cut at matches that do not overlap, each the leftmost one of the text that is left,
until there is none. -/
inductive Matches : List Char → List (List Char × List Char) → List Char → Prop
  | done {text : List Char}
      (none : ∀ before found after, text = before ++ found ++ after → ¬ IsMatch found) :
      Matches text [] text
  | next {literal inner rest last : List Char} {parts : List (List Char × List Char)}
      (found : IsMatch (Piece.hole inner).render)
      (leftmost : ∀ before found after, literal ++ (Piece.hole inner).render ++ rest =
        before ++ found ++ after → IsMatch found → literal.length ≤ before.length)
      (tail : Matches rest parts last) :
      Matches (literal ++ (Piece.hole inner).render ++ rest) ((literal, inner) :: parts) last

theorem render_hole_append (literal inner rest : List Char) :
    literal ++ (Piece.hole inner).render ++ rest =
      literal ++ '$' :: '{' :: (inner ++ '}' :: rest) := by
  simp [Piece.render]

theorem isMatch_render_iff : IsMatch (Piece.hole inner).render ↔ '}' ∉ inner := by
  constructor
  · rintro ⟨other, hother, heq⟩
    simp only [Piece.render, List.cons_append, List.cons.injEq, true_and,
      List.append_cancel_right_eq] at heq
    rwa [heq]
  · exact fun h => ⟨inner, h, rfl⟩

/-- A match starts where an opening stands that is closed further on. -/
theorem exists_match_iff {before : List Char} :
    (∃ found after, text = before ++ found ++ after ∧ IsMatch found) ↔
      ∃ after, text = before ++ '$' :: '{' :: after ∧ '}' ∈ after := by
  constructor
  · rintro ⟨_, after, rfl, inner, -, rfl⟩
    exact ⟨inner ++ '}' :: after, render_hole_append before inner after, by simp⟩
  · rintro ⟨after, rfl, hmem⟩
    obtain ⟨inner, rest, rfl, hinner⟩ := List.eq_append_cons_of_mem hmem
    exact ⟨(Piece.hole inner).render, rest, (render_hole_append before inner rest).symm, inner,
      hinner, rfl⟩

/-- What follows an opening in front of a placeholder closes this opening as well. -/
private theorem mem_of_length_le {before after : List Char}
    (heq : literal ++ '$' :: '{' :: (inner ++ '}' :: rest) = before ++ '$' :: '{' :: after)
    (hle : before.length ≤ literal.length) : '}' ∈ after := by
  have hplaceholder : inner ++ '}' :: rest <:+ before ++ '$' :: '{' :: after :=
    heq ▸ ⟨literal ++ ['$', '{'], by simp⟩
  have hafter : after <:+ before ++ '$' :: '{' :: after := ⟨before ++ ['$', '{'], by simp⟩
  have hlength := congrArg List.length heq
  simp only [List.length_append, List.length_cons] at hlength
  have hsuffix : inner ++ '}' :: rest <:+ after :=
    List.suffix_of_suffix_length_le hplaceholder hafter
      (by simp only [List.length_append, List.length_cons]; omega)
  exact hsuffix.subset (by simp)

/-- The first opening of a text with a match is where the leftmost match starts. -/
theorem scans_iff_matches : Scans text parts last ↔ Matches text parts last := by
  constructor
  · intro h
    induction h with
    | done unclosed =>
        refine .done fun before found after heq hfound => ?_
        obtain ⟨behind, hopen, hmem⟩ := exists_match_iff.1 ⟨found, after, heq, hfound⟩
        exact unclosed before behind hopen hmem
    | next first closed _ ih =>
        rw [← render_hole_append]
        refine .next (isMatch_render_iff.2 closed) (fun before found after heq hfound => ?_) ih
        rw [render_hole_append] at heq
        obtain ⟨behind, hopen, -⟩ := exists_match_iff.1 ⟨found, after, heq, hfound⟩
        exact first before behind hopen
  · intro h
    induction h with
    | done none =>
        refine .done fun before after heq hmem => ?_
        obtain ⟨found, behind, hsplit, hfound⟩ := exists_match_iff.2 ⟨after, heq, hmem⟩
        exact none before found behind hsplit hfound
    | next found leftmost _ ih =>
        rw [render_hole_append]
        refine .next (fun before after heq => ?_) (isMatch_render_iff.1 found) ih
        by_contra hlt
        -- The opening would start a match in front of the leftmost one.
        have hmem := mem_of_length_le heq (by omega)
        obtain ⟨other, behind, hsplit, hother⟩ := exists_match_iff.2 ⟨after, heq, hmem⟩
        rw [← render_hole_append] at hsplit
        exact hlt (leftmost before other behind hsplit hother)

/-! ## The pieces of a cut -/

/-- The pieces of a text that is cut at its placeholders. -/
def assemble (parts : List (List Char × List Char)) (last : List Char) : List Piece :=
  parts.flatMap (fun part => part.1.map .char ++ [.hole part.2]) ++ last.map .char

theorem assemble_cons (part : List Char × List Char) (parts : List (List Char × List Char))
    (last : List Char) :
    assemble (part :: parts) last =
      part.1.map .char ++ .hole part.2 :: assemble parts last := by
  simp [assemble]

theorem char_mem_assemble {c : Char} : .char c ∈ assemble parts last ↔
    (∃ part ∈ parts, c ∈ part.1) ∨ c ∈ last := by
  simp [assemble]

theorem hole_mem_assemble : .hole inner ∈ assemble parts last ↔ ∃ part ∈ parts, part.2 = inner := by
  simp [assemble, eq_comm]

/-- Text without an opening in front of a position is read character by character. -/
private theorem piecesFrom_literal (tail : List Char)
    (h : ∀ before after, literal ++ tail = before ++ '$' :: '{' :: after →
      literal.length ≤ before.length) :
    piecesFrom none (literal ++ tail) = literal.map .char ++ piecesFrom none tail := by
  induction literal with
  | nil => rfl
  | cons c literal ih =>
      have hc : ¬ (c = '$' ∧ (literal ++ tail).head? = some '{') := by
        rintro ⟨rfl, hhead⟩
        obtain ⟨after, hafter⟩ := List.head?_eq_some_iff.1 hhead
        have hle := h [] after (by simp [hafter])
        simp at hle
      have hrest := ih fun before after heq => by
        have hle := h (c :: before) after (by simp [heq])
        simpa using hle
      rw [List.cons_append, piecesFrom_char hc, hrest, List.map_cons, List.cons_append]

/-- A text in which no opening is ever closed is read character by character. -/
private theorem piecesFrom_of_unclosed
    (h : ∀ before after, text = before ++ '$' :: '{' :: after → '}' ∉ after) :
    piecesFrom none text = text.map .char := by
  induction text using reading_induction with
  | nil => rfl
  | char c rest hc ih =>
      have hrest := ih fun before after heq => h (c :: before) after (by simp [heq])
      rw [piecesFrom_char hc, hrest, List.map_cons]
  | hole inner rest hinner ih => exact absurd (by simp) (h [] (inner ++ '}' :: rest) rfl)
  | unclosed inner hinner => exact piecesFrom_unclosed hinner

/-- Reading a text finds the pieces of its cut. -/
theorem Scans.pieces_eq (h : Scans text parts last) :
    piecesFrom none text = assemble parts last := by
  induction h with
  | done unclosed => simpa [assemble] using piecesFrom_of_unclosed unclosed
  | next first closed _ ih =>
      rw [piecesFrom_literal _ first, piecesFrom_hole closed, ih, assemble_cons]

/-- A nested opening belongs to the name, and the brace that is left over to the text behind. -/
example : pieces "$$\x7ba$\x7bb\x7d\x7d" =
    [.char '$', .hole ['a', '$', '{', 'b'], .char '}'] := by
  decide +kernel

theorem Scans.hasHoles_iff {pattern : String} (h : Scans pattern.toList parts last) :
    hasHoles pattern = true ↔ 0 < parts.length := by
  rw [hasHoles, pieces, h.pieces_eq]
  cases parts with
  | nil => simp [assemble, Piece.isHole]
  | cons part parts => simp [assemble_cons, Piece.isHole]

/-! ## Filling along a cut -/

/-- What stands between the braces spells out what is asked for: the first dot separates the
attribute from the name. -/
inductive Spells : List Char → Placeholder → Prop
  | plain {name : List Char} (h : '.' ∉ name) : Spells name ⟨String.ofList name, none⟩
  | dotted {name attr : List Char} (h : '.' ∉ name) :
      Spells (name ++ '.' :: attr) ⟨String.ofList name, some (String.ofList attr)⟩

/-- What comes into the places of placeholders, and about which of them an answer is asked, from
left to right. -/
inductive Answers (answer : Placeholder → σ → Option String × σ) :
    List (List Char) → σ → List (List Char) → List Placeholder → σ → Prop
  | nil (state : σ) : Answers answer [] state [] [] state
  /-- An escape stays as it is written, and nothing is asked about it. -/
  | escape {inner : List Char} {rest replies : List (List Char)} {calls : List Placeholder}
      {state later : σ} (h : inner.head? = some '!')
      (tail : Answers answer rest state replies calls later) :
      Answers answer (inner :: rest) state ((Piece.hole inner).render :: replies) calls later
  /-- A placeholder gives way to the answer, or stays as it is written if there is none. -/
  | ask {inner : List Char} {rest replies : List (List Char)} {calls : List Placeholder}
      {placeholder : Placeholder} {state later : σ} (h : inner.head? ≠ some '!')
      (spells : Spells inner placeholder)
      (tail : Answers answer rest (answer placeholder state).2 replies calls later) :
      Answers answer (inner :: rest) state
        (((answer placeholder state).1.map String.toList).getD (Piece.hole inner).render :: replies)
        (placeholder :: calls) later

/-- The literal texts of a cut, each with what came into the place of the placeholder behind it. -/
def weave (parts : List (List Char × List Char)) (replies : List (List Char))
    (last : List Char) : List Char :=
  (List.zipWith (fun part reply => part.1 ++ reply) parts replies).flatten ++ last

/-- An answer that keeps a log of what it has been asked. -/
def logged (answer : Placeholder → σ → Option String × σ) :
    Placeholder → σ × List Placeholder → Option String × (σ × List Placeholder) :=
  fun placeholder state =>
    ((answer placeholder state.1).1, ((answer placeholder state.1).2, state.2 ++ [placeholder]))

variable {answer : Placeholder → σ → Option String × σ} {inners replies : List (List Char)}
  {calls : List Placeholder} {placeholder : Placeholder} {state later : σ}

theorem exists_spells (inner : List Char) : ∃ placeholder, Spells inner placeholder := by
  by_cases hdot : '.' ∈ inner
  · obtain ⟨name, attr, rfl, hname⟩ := List.eq_append_cons_of_mem hdot
    exact ⟨_, .dotted hname⟩
  · exact ⟨_, .plain hdot⟩

theorem Spells.ofHole?_eq (h : Spells inner placeholder) (hinner : inner.head? ≠ some '!') :
    Placeholder.ofHole? inner = some placeholder := by
  rw [Placeholder.ofHole?, if_neg hinner]
  cases h with
  | plain hdot => rw [Text.cutAt_eq_none_iff.2 hdot]
  | dotted hdot => rw [Text.cutAt_append hdot]

theorem ofHole?_escape (h : inner.head? = some '!') : Placeholder.ofHole? inner = none := by
  rw [Placeholder.ofHole?, if_pos h]

theorem exists_answers (answer : Placeholder → σ → Option String × σ) (inners : List (List Char))
    (state : σ) : ∃ replies calls later, Answers answer inners state replies calls later := by
  induction inners generalizing state with
  | nil => exact ⟨[], [], state, .nil state⟩
  | cons inner rest ih =>
      by_cases hescape : inner.head? = some '!'
      · obtain ⟨replies, calls, later, h⟩ := ih state
        exact ⟨_, _, _, .escape hescape h⟩
      · obtain ⟨placeholder, hspells⟩ := exists_spells inner
        obtain ⟨replies, calls, later, h⟩ := ih (answer placeholder state).2
        exact ⟨_, _, _, .ask hescape hspells h⟩

/-- Keeping a log changes nothing but the log. -/
theorem Answers.logged (h : Answers answer inners state replies calls later)
    (log : List Placeholder) :
    Answers (logged answer) inners (state, log) replies calls (later, log ++ calls) := by
  induction h generalizing log with
  | nil state => simpa using Answers.nil (state, log)
  | escape hescape _ ih => exact .escape hescape (ih log)
  | @ask inner rest replies calls placeholder state later hinner hspells _ ih =>
      have htail : Answers (Pattern.logged answer) rest
          (Pattern.logged answer placeholder (state, log)).2 replies calls
          (later, log ++ placeholder :: calls) := by
        rw [List.append_cons]
        exact ih (log ++ [placeholder])
      exact .ask hinner hspells htail

/-- If nothing is answered, all placeholders stay as they are written. -/
theorem Answers.replies_eq (hnone : ∀ placeholder state, (answer placeholder state).1 = none)
    (h : Answers answer inners state replies calls later) :
    replies = inners.map fun inner => (Piece.hole inner).render := by
  induction h with
  | nil => rfl
  | escape _ _ ih => rw [ih, List.map_cons]
  | ask _ _ _ ih => rw [ih, hnone, List.map_cons, Option.map_none, Option.getD_none]

theorem fillPieces_assemble (h : Answers answer (parts.map (·.2)) state replies calls later) :
    fillPieces answer (assemble parts last) state = (weave parts replies last, later) := by
  induction parts generalizing state replies calls with
  | nil =>
      cases h
      simp [assemble, weave, fillPieces_map_char]
  | cons part parts ih =>
      rw [assemble_cons, fillPieces_append, fillPieces_map_char]
      cases h with
      | escape hescape tail =>
          simp [fillPieces, ofHole?_escape hescape, ih tail, weave]
      | ask hinner hspells tail =>
          simp [fillPieces, hspells.ofHole?_eq hinner, ih tail, weave]

/-- Filling a pattern writes its literal texts and what came into the places of its placeholders
one after the other. -/
theorem Scans.fill_eq {pattern : String} (hscans : Scans pattern.toList parts last)
    (h : Answers answer (parts.map (·.2)) state replies calls later) :
    fill answer pattern state = (String.ofList (weave parts replies last), later) := by
  rw [fill, pieces, hscans.pieces_eq, fillPieces_assemble h]

/-- A cut loses nothing. -/
theorem Scans.weave_eq (h : Scans text parts last) :
    weave parts (parts.map fun part => (Piece.hole part.2).render) last = text := by
  induction h with
  | done => simp [weave]
  | next _ _ _ ih =>
      rw [← render_hole_append]
      simpa [weave] using ih

/-- How a pattern is scanned and filled that is cut into `parts` and `last`. -/
structure ScannedAs (pattern : String) (parts : List (List Char × List Char))
    (last : List Char) : Prop where
  /-- There is exactly one cut of the pattern. -/
  scans_iff : ∀ others ending, Scans pattern.toList others ending ↔ others = parts ∧ ending = last
  /-- A search for leftmost matches finds the same cut. -/
  matches_iff : ∀ others ending,
    Matches pattern.toList others ending ↔ others = parts ∧ ending = last
  hasHoles_iff : hasHoles pattern = true ↔ 0 < parts.length
  /-- Whatever the answers are and whatever state they keep, what comes into the places of the
  placeholders stands between the literal texts, and nothing else has been asked about. -/
  filled : ∀ {σ : Type} (answer : Placeholder → σ → Option String × σ) (state : σ),
    ∃ replies calls later, Answers answer (parts.map (·.2)) state replies calls later ∧
      fill answer pattern state = (String.ofList (weave parts replies last), later) ∧
      (fill (logged answer) pattern (state, [])).2 = (later, calls)
  /-- If nothing is answered, the pattern stays as it is. -/
  unanswered : ∀ {σ : Type} (answer : Placeholder → σ → Option String × σ),
    (∀ placeholder state, (answer placeholder state).1 = none) →
      ∀ state, (fill answer pattern state).1 = pattern

/-- Every pattern has exactly one cut at its placeholders, which a search for leftmost matches
finds, and filling goes along it: each placeholder that is no escape is asked about once, from left
to right, and gives way to its answer, which is not read again. -/
theorem exists_scannedAs (pattern : String) : ∃ parts last, ScannedAs pattern parts last := by
  obtain ⟨parts, last, hscans⟩ := exists_scans pattern.toList
  have hunique : ∀ others ending,
      Scans pattern.toList others ending ↔ others = parts ∧ ending = last := by
    intro others ending
    constructor
    · exact hscans.unique
    · rintro ⟨rfl, rfl⟩
      exact hscans
  refine ⟨parts, last, hunique, fun others ending => ?leftmost, hscans.hasHoles_iff,
    fun answer state => ?filled, fun answer hnone state => ?unanswered⟩
  case leftmost => rw [← scans_iff_matches, hunique]
  case filled =>
    obtain ⟨replies, calls, later, h⟩ := exists_answers answer (parts.map (·.2)) state
    refine ⟨replies, calls, later, h, hscans.fill_eq h, ?_⟩
    rw [hscans.fill_eq (h.logged []), List.nil_append]
  case unanswered =>
    obtain ⟨replies, calls, later, h⟩ := exists_answers answer (parts.map (·.2)) state
    have hreplies := h.replies_eq hnone
    rw [List.map_map] at hreplies
    rw [hscans.fill_eq h, hreplies]
    exact (congrArg String.ofList hscans.weave_eq).trans String.ofList_toList

end StackLinker.Pattern
