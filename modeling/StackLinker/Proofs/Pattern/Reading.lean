import Mathlib.Data.List.Chain
import StackLinker.Placeholder

/-!
# Reading a pattern again

A pattern is filled, and what comes out is read again by a later pass.  This file is about the
reading of a text, and about the texts that can be put into others without changing how these are
read.

* A text may end inside an opening or right after a dollar sign, and what follows it is then read as
  a part of a hole.  `endsOutside` excludes this: a closed text can be followed by anything
  (`piecesFrom_append`).
* A literal dollar sign in front of a hole may meet a brace when the hole is replaced.  Either no
  hole stands behind a dollar sign (`isSpaced`), or no text that is put in is empty or starts with
  a brace (`isSolid`).
* A placeholder that is written into a pattern is read as one hole (`pieces_text`), and as the same
  placeholder if its name has no dot (`eq_of_ofHole?_inner`).

`reading_induction` is induction along the reading of a text: a hole, an opening that is never
closed, or an ordinary character.
-/

namespace StackLinker.Pattern

/-! ## The text between the holes -/

theorem piecesFrom_some {inner acc rest : List Char} (h : '}' ∉ inner) :
    piecesFrom (some acc) (inner ++ '}' :: rest) =
      .hole (acc.reverse ++ inner) :: piecesFrom none rest := by
  induction inner generalizing acc with
  | nil => simp [piecesFrom]
  | cons c inner ih =>
      simp only [List.mem_cons, not_or] at h
      simp [piecesFrom, Ne.symm h.1, ih h.2]

theorem piecesFrom_some_unclosed {inner acc : List Char} (h : '}' ∉ inner) :
    piecesFrom (some acc) inner = ('$' :: '{' :: (acc.reverse ++ inner)).map .char := by
  induction inner generalizing acc with
  | nil => simp [piecesFrom]
  | cons c inner ih =>
      simp only [List.mem_cons, not_or] at h
      simp [piecesFrom, Ne.symm h.1, ih h.2]

/-- A hole ends at the first closing brace. -/
theorem piecesFrom_hole {inner : List Char} (h : '}' ∉ inner) (rest : List Char) :
    piecesFrom none ('$' :: '{' :: (inner ++ '}' :: rest)) =
      .hole inner :: piecesFrom none rest := by
  simp [piecesFrom, piecesFrom_some h]

/-- An opening that is never closed is ordinary text. -/
theorem piecesFrom_unclosed {inner : List Char} (h : '}' ∉ inner) :
    piecesFrom none ('$' :: '{' :: inner) = ('$' :: '{' :: inner).map .char := by
  simp [piecesFrom, piecesFrom_some_unclosed h]

theorem piecesFrom_char {c : Char} {rest : List Char} (h : ¬ (c = '$' ∧ rest.head? = some '{')) :
    piecesFrom none (c :: rest) = .char c :: piecesFrom none rest := by
  cases rest with
  | nil => simp [piecesFrom]
  | cons d rest =>
      rw [piecesFrom]
      rintro r rfl hr
      simp only [List.cons.injEq] at hr
      exact h ⟨rfl, by simp [hr.1]⟩

/-- Induction along the reading of a text. -/
theorem reading_induction {P : List Char → Prop} (nil : P [])
    (char : ∀ c rest, ¬ (c = '$' ∧ rest.head? = some '{') → P rest → P (c :: rest))
    (hole : ∀ inner rest, '}' ∉ inner → P rest → P ('$' :: '{' :: (inner ++ '}' :: rest)))
    (unclosed : ∀ inner, '}' ∉ inner → P ('$' :: '{' :: inner)) (text : List Char) : P text := by
  match text with
  | [] => exact nil
  | c :: rest =>
      by_cases hopen : c = '$' ∧ rest.head? = some '{'
      · obtain ⟨rfl, hhead⟩ := hopen
        obtain ⟨tail, rfl⟩ := List.head?_eq_some_iff.1 hhead
        by_cases hclose : '}' ∈ tail
        · obtain ⟨inner, after, rfl, hinner⟩ := List.eq_append_cons_of_mem hclose
          exact hole inner after hinner (reading_induction nil char hole unclosed after)
        · exact unclosed tail hclose
      · exact char c rest hopen (reading_induction nil char hole unclosed rest)
termination_by text.length
decreasing_by all_goals simp_all <;> omega

/-! ## Texts that can be followed by anything -/

/-- Whether a reader that starts inside, or outside, an opening ends outside of every opening and
not right after a dollar sign. -/
def endsOutside : Bool → List Char → Bool
  | inside, [] => !inside
  | true, c :: rest => endsOutside (decide (c ≠ '}')) rest
  | false, '$' :: '{' :: rest => endsOutside true rest
  | false, c :: rest => (decide (c ≠ '$') || !rest.isEmpty) && endsOutside false rest

/-- Whether anything may follow a text without being read as a part of a hole. -/
def isClosed (text : String) : Bool := endsOutside false text.toList

theorem endsOutside_char {c : Char} {rest : List Char} (h : ¬ (c = '$' ∧ rest.head? = some '{')) :
    endsOutside false (c :: rest) =
      ((decide (c ≠ '$') || !rest.isEmpty) && endsOutside false rest) := by
  cases rest with
  | nil => simp [endsOutside]
  | cons d rest =>
      rw [endsOutside]
      rintro r rfl hr
      simp only [List.cons.injEq] at hr
      exact h ⟨rfl, by simp [hr.1]⟩

/-- Behind a literal dollar sign something has to follow. -/
theorem endsOutside_char_iff {c : Char} {rest : List Char}
    (h : ¬ (c = '$' ∧ rest.head? = some '{')) :
    endsOutside false (c :: rest) = true ↔
      (rest = [] → c ≠ '$') ∧ endsOutside false rest = true := by
  rw [endsOutside_char h, Bool.and_eq_true, Bool.or_eq_true, decide_eq_true_eq, Bool.not_eq_true',
    List.isEmpty_eq_false_iff, or_comm, ← imp_iff_not_or]

theorem endsOutside_true_append {inner rest : List Char} (h : '}' ∉ inner) :
    endsOutside true (inner ++ '}' :: rest) = endsOutside false rest := by
  induction inner with
  | nil => simp [endsOutside]
  | cons c inner ih =>
      simp only [List.mem_cons, not_or] at h
      simp [endsOutside, Ne.symm h.1, ih h.2]

theorem endsOutside_true_of_notMem {inner : List Char} (h : '}' ∉ inner) :
    endsOutside true inner = false := by
  induction inner with
  | nil => simp [endsOutside]
  | cons c inner ih =>
      simp only [List.mem_cons, not_or] at h
      simp [endsOutside, Ne.symm h.1, ih h.2]

theorem endsOutside_hole {inner : List Char} (h : '}' ∉ inner) (rest : List Char) :
    endsOutside false ('$' :: '{' :: (inner ++ '}' :: rest)) = endsOutside false rest := by
  simp [endsOutside, endsOutside_true_append h]

theorem endsOutside_unclosed {inner : List Char} (h : '}' ∉ inner) :
    endsOutside false ('$' :: '{' :: inner) = false := by
  simp [endsOutside, endsOutside_true_of_notMem h]

private theorem head?_append_ne {c : Char} {text : List Char}
    (h : ¬ (c = '$' ∧ text.head? = some '{')) (hnext : text = [] → c ≠ '$') (rest : List Char) :
    ¬ (c = '$' ∧ (text ++ rest).head? = some '{') := by
  cases text with
  | nil => exact fun hc => hnext rfl hc.1
  | cons d text => simpa using h

/-- What follows a closed text is read on its own. -/
theorem piecesFrom_append {text : List Char} (h : endsOutside false text = true)
    (rest : List Char) :
    piecesFrom none (text ++ rest) = piecesFrom none text ++ piecesFrom none rest := by
  induction text using reading_induction with
  | nil => rfl
  | char c text hc ih =>
      obtain ⟨hnext, htext⟩ := (endsOutside_char_iff hc).1 h
      rw [List.cons_append, piecesFrom_char hc, piecesFrom_char (head?_append_ne hc hnext rest),
        ih htext, List.cons_append]
  | hole inner text hinner ih =>
      rw [endsOutside_hole hinner] at h
      rw [List.cons_append, List.cons_append, List.append_assoc, List.cons_append,
        piecesFrom_hole hinner, piecesFrom_hole hinner, ih h, List.cons_append]
  | unclosed inner hinner => simp [endsOutside_unclosed hinner] at h

theorem endsOutside_append {text : List Char} (h : endsOutside false text = true)
    (rest : List Char) : endsOutside false (text ++ rest) = endsOutside false rest := by
  induction text using reading_induction with
  | nil => rfl
  | char c text hc ih =>
      obtain ⟨hnext, htext⟩ := (endsOutside_char_iff hc).1 h
      rw [List.cons_append, endsOutside_char (head?_append_ne hc hnext rest), ih htext]
      by_cases hnil : text = []
      · simp [hnext hnil]
      · simp [hnil]
  | hole inner text hinner ih =>
      rw [endsOutside_hole hinner] at h
      rw [List.cons_append, List.cons_append, List.append_assoc, List.cons_append,
        endsOutside_hole hinner, ih h]
  | unclosed inner hinner => simp [endsOutside_unclosed hinner] at h

/-- A text that ends in a closing brace is closed. -/
theorem endsOutside_of_closingBrace (text : List Char) :
    endsOutside false (text ++ ['}']) = true := by
  induction text using reading_induction with
  | nil => rfl
  | char c text hc ih =>
      have hopen : ¬ (c = '$' ∧ (text ++ ['}']).head? = some '{') := by
        cases text with
        | nil => simp
        | cons d text => simpa using hc
      simp [endsOutside_char hopen, ih]
  | hole inner text hinner ih => simpa [endsOutside_hole hinner] using ih
  | unclosed inner hinner =>
      simpa [endsOutside] using endsOutside_hole hinner []

/-! ## Holes behind a dollar sign -/

/-- Whether no hole stands right behind a literal dollar sign. -/
def isSpaced (pieces : List Piece) : Bool :=
  decide (pieces.IsChain fun p q => p = .char '$' → q.isHole = false)

/-- Whether a text is neither empty nor starts with an opening brace. -/
def isSolid : List Char → Bool
  | [] => false
  | c :: _ => decide (c ≠ '{')

theorem isSpaced_of_cons {piece : Piece} {rest : List Piece}
    (h : isSpaced (piece :: rest) = true) : isSpaced rest = true := by
  simp only [isSpaced, decide_eq_true_eq] at h ⊢
  exact h.tail

theorem isSpaced_cons_cons_iff {first piece : Piece} {rest : List Piece} :
    isSpaced (first :: piece :: rest) = true ↔
      (first = .char '$' → piece.isHole = false) ∧ isSpaced (piece :: rest) = true := by
  simp only [isSpaced, decide_eq_true_eq, List.isChain_cons_cons]

theorem isSpaced_cons {piece : Piece} {rest : List Piece} (hpiece : piece ≠ .char '$')
    (h : isSpaced rest = true) : isSpaced (piece :: rest) = true := by
  simp only [isSpaced, decide_eq_true_eq] at h ⊢
  exact List.isChain_cons.2 ⟨fun _ _ hdollar => absurd hdollar hpiece, h⟩

theorem isSpaced_append {before after : List Piece} (hbefore : isSpaced before = true)
    (hlast : before.getLast? ≠ some (.char '$')) (hafter : isSpaced after = true) :
    isSpaced (before ++ after) = true := by
  simp only [isSpaced, decide_eq_true_eq] at hbefore hafter ⊢
  refine List.isChain_append.2 ⟨hbefore, hafter, ?_⟩
  rintro last hmem next - rfl
  exact absurd hmem hlast

theorem flatMap_render_pieces (text : List Char) :
    (piecesFrom none text).flatMap Piece.render = text :=
  flatMap_render_piecesFrom none text

/-- A closed text does not end in a literal dollar sign. -/
theorem getLast?_piecesFrom_ne {text : List Char} (h : endsOutside false text = true) :
    (piecesFrom none text).getLast? ≠ some (.char '$') := by
  induction text using reading_induction with
  | nil => simp [piecesFrom]
  | char c rest hc ih =>
      obtain ⟨hnext, hrest⟩ := (endsOutside_char_iff hc).1 h
      rw [piecesFrom_char hc, List.getLast?_cons]
      cases hlast : (piecesFrom none rest).getLast? with
      | none =>
          -- Only the empty text has no pieces.
          have hnil : rest = [] := by
            rw [← flatMap_render_pieces rest, List.getLast?_eq_none_iff.1 hlast]
            rfl
          simpa using hnext hnil
      | some last =>
          rw [hlast] at ih
          simpa using ih hrest
  | hole inner rest hinner ih =>
      rw [endsOutside_hole hinner] at h
      rw [piecesFrom_hole hinner, List.getLast?_cons]
      cases hlast : (piecesFrom none rest).getLast? with
      | none => simp
      | some last =>
          rw [hlast] at ih
          simpa using ih h
  | unclosed inner hinner => simp [endsOutside_unclosed hinner] at h

/-! ## Written placeholders -/

/-- A hole ends at the first closing brace. -/
theorem notMem_of_hole_mem {inner text : List Char} (h : .hole inner ∈ piecesFrom none text) :
    '}' ∉ inner := by
  induction text using reading_induction with
  | nil => simp [piecesFrom] at h
  | char c rest hc ih =>
      rw [piecesFrom_char hc] at h
      exact ih (by simpa using h)
  | hole other rest hother ih =>
      rw [piecesFrom_hole hother] at h
      rcases List.mem_cons.1 h with heq | h
      · rwa [Piece.hole.inj heq]
      · exact ih h
  | unclosed other hother =>
      rw [piecesFrom_unclosed hother] at h
      simp at h

theorem isSpaced_of_not_hasHoles {text : String} (h : hasHoles text = false) :
    isSpaced (pieces text) = true := by
  rw [hasHoles, List.any_eq_false] at h
  rw [isSpaced, decide_eq_true_eq]
  generalize pieces text = ps at h
  induction ps with
  | nil => exact .nil
  | cons piece rest ih =>
      have hrest := ih fun other hother => h other (List.mem_cons_of_mem _ hother)
      refine List.isChain_cons.2 ⟨fun other hother _ => ?_, hrest⟩
      have hmem : other ∈ rest := List.mem_of_mem_head? hother
      simpa using h other (List.mem_cons_of_mem _ hmem)

/-- What a placeholder has between its braces. -/
def inner (placeholder : Placeholder) : List Char :=
  match placeholder.attr with
  | some attr => placeholder.name.toList ++ '.' :: attr.toList
  | none => placeholder.name.toList

theorem name_prefix_inner (placeholder : Placeholder) :
    placeholder.name.toList <+: inner placeholder := by
  unfold inner
  split
  · exact List.prefix_append _ _
  · exact List.prefix_refl _

/-- A hole holds nothing but the placeholder that is read from it. -/
theorem inner_of_ofHole? {hole : List Char} {placeholder : Placeholder}
    (h : Placeholder.ofHole? hole = some placeholder) : inner placeholder = hole := by
  unfold Placeholder.ofHole? at h
  split at h
  · simp at h
  · split at h
    · rename_i name attr hcut
      obtain ⟨heq, -⟩ := Text.eq_append_of_cutAt hcut
      obtain rfl := Option.some.inj h
      simpa [inner] using heq.symm
    · obtain rfl := Option.some.inj h
      simp [inner]

theorem toList_text (placeholder : Placeholder) :
    placeholder.text.toList = '$' :: '{' :: (inner placeholder ++ ['}']) := by
  unfold Placeholder.text inner
  cases placeholder.attr <;> simp [String.toList_append]

theorem isClosed_text (placeholder : Placeholder) : isClosed placeholder.text = true := by
  rw [isClosed, toList_text]
  exact endsOutside_of_closingBrace ('$' :: '{' :: inner placeholder)

/-- A placeholder without a closing brace inside is read as one hole. -/
theorem pieces_text {placeholder : Placeholder} (h : '}' ∉ inner placeholder) :
    pieces placeholder.text = [.hole (inner placeholder)] := by
  rw [pieces, toList_text, piecesFrom_hole h []]
  rfl

/-- What is read as a placeholder does not start as an escape does. -/
theorem head?_of_ofHole? {hole : List Char} {placeholder : Placeholder}
    (h : Placeholder.ofHole? hole = some placeholder) : hole.head? ≠ some '!' := by
  intro hescape
  rw [Placeholder.ofHole?, if_pos hescape] at h
  simp at h

/-- The name that is read from a written placeholder ends at the first dot. -/
theorem ofHole?_inner {placeholder read : Placeholder}
    (h : Placeholder.ofHole? (inner placeholder) = some read) :
    ∃ rest, inner placeholder = read.name.toList ++ rest ∧ '.' ∉ read.name.toList ∧
      (rest = [] ∨ rest.head? = some '.') := by
  unfold Placeholder.ofHole? at h
  split at h
  · simp at h
  · split at h
    · rename_i name attr hcut
      obtain ⟨heq, hdot⟩ := Text.eq_append_of_cutAt hcut
      obtain rfl := Option.some.inj h
      exact ⟨'.' :: attr, by simpa using heq, by simpa using hdot, Or.inr rfl⟩
    · rename_i hcut
      obtain rfl := Option.some.inj h
      exact ⟨[], by simp, by simpa using Text.cutAt_eq_none_iff.1 hcut, Or.inl rfl⟩

/-- A placeholder whose name has no dot is read as it was meant. -/
theorem eq_of_ofHole?_inner {placeholder read : Placeholder} (hdot : '.' ∉ placeholder.name.toList)
    (h : Placeholder.ofHole? (inner placeholder) = some read) : read = placeholder := by
  obtain ⟨name, attr⟩ := placeholder
  unfold Placeholder.ofHole? at h
  split at h
  · simp at h
  · cases attr with
    | none => simpa [inner, Text.cutAt_eq_none_iff.2 hdot] using h.symm
    | some attr => simpa [inner, Text.cutAt_append hdot] using h.symm

theorem isSolid_text (placeholder : Placeholder) : isSolid placeholder.text.toList = true := by
  rw [toList_text]
  rfl

end StackLinker.Pattern
