/-!
# Cutting and replacing text

Names and patterns are cut, searched and replaced as lists of characters, so that every operation
is a recursion on the text itself.  The statements beside the definitions say what each operation
keeps: a cut loses only the separator, and a removed marker can be put back.
-/

namespace StackLinker.Text

/-- The two parts of a text around the first `separator`, which is in neither of them. -/
def cutAt (separator : Char) : List Char → Option (List Char × List Char)
  | [] => none
  | c :: rest =>
    if c = separator then some ([], rest)
    else (cutAt separator rest).map fun parts => (c :: parts.1, parts.2)

theorem eq_append_of_cutAt {separator : Char} {text before after : List Char}
    (h : cutAt separator text = some (before, after)) :
    text = before ++ separator :: after ∧ separator ∉ before := by
  induction text generalizing before with
  | nil => simp [cutAt] at h
  | cons c rest ih =>
    by_cases hc : c = separator
    · simp only [cutAt, hc, if_true, Option.some.injEq, Prod.mk.injEq] at h
      obtain ⟨rfl, rfl⟩ := h
      simp [hc]
    · simp only [cutAt, hc, if_false, Option.map_eq_some_iff] at h
      obtain ⟨⟨front, back⟩, hcut, hparts⟩ := h
      simp only [Prod.mk.injEq] at hparts
      obtain ⟨rfl, rfl⟩ := hparts
      obtain ⟨heq, hmem⟩ := ih hcut
      exact ⟨by simp [heq], by simp [hmem, Ne.symm hc]⟩

theorem cutAt_append {separator : Char} {before : List Char} (h : separator ∉ before)
    (after : List Char) :
    cutAt separator (before ++ separator :: after) = some (before, after) := by
  induction before with
  | nil => simp [cutAt]
  | cons c rest ih =>
    simp only [List.mem_cons, not_or] at h
    simp [cutAt, ih h.2, Ne.symm h.1]

theorem cutAt_eq_none_iff {separator : Char} {text : List Char} :
    cutAt separator text = none ↔ separator ∉ text := by
  induction text with
  | nil => simp [cutAt]
  | cons c rest ih =>
    by_cases hc : c = separator
    · simp [cutAt, hc]
    · simp [cutAt, hc, ih, Ne.symm hc]

/-- The parts of a text around its first dot. -/
def cutAtDot (text : String) : Option (String × String) :=
  (cutAt '.' text.toList).map fun parts => (String.ofList parts.1, String.ofList parts.2)

/-- Replaces `pattern` from the left, without overlaps.  The number counts the characters of an
occurrence that are still to be dropped. -/
def replaceFrom (pattern replacement : List Char) : Nat → List Char → List Char
  | _, [] => []
  | skip + 1, _ :: rest => replaceFrom pattern replacement skip rest
  | 0, c :: rest =>
    if pattern.isPrefixOf (c :: rest) then
      replacement ++ replaceFrom pattern replacement (pattern.length - 1) rest
    else
      c :: replaceFrom pattern replacement 0 rest

/-- Replaces every occurrence of `pattern`.  The empty pattern occurs before every character and
at the end of the text. -/
def replaceAll (pattern replacement text : String) : String :=
  if pattern.isEmpty then
    String.ofList
      (replacement.toList ++ text.toList.flatMap fun c => c :: replacement.toList)
  else
    String.ofList (replaceFrom pattern.toList replacement.toList 0 text.toList)

/-- Whether `text` starts with `marker`. -/
def startsWith (marker text : String) : Bool :=
  marker.toList.isPrefixOf text.toList

/-- What follows `marker` at the start of `text`. -/
def afterMarker? (marker text : String) : Option String :=
  (marker.toList.isPrefixOf? text.toList).map String.ofList

theorem eq_append_of_isPrefixOf? {marker text rest : List Char}
    (h : marker.isPrefixOf? text = some rest) : text = marker ++ rest := by
  induction marker generalizing text with
  | nil => exact Option.some.inj h
  | cons m marker ih =>
    cases text with
    | nil => exact nomatch (show none = some rest from h)
    | cons c text =>
      have hstep : (if m == c then marker.isPrefixOf? text else none) = some rest := h
      by_cases hc : m = c
      · rw [if_pos (by simp [hc])] at hstep
        simp [hc, ih hstep]
      · simp [hc] at hstep

theorem eq_append_of_afterMarker? {marker text rest : String}
    (h : afterMarker? marker text = some rest) : text = marker ++ rest := by
  obtain ⟨chars, hchars, rfl⟩ := Option.map_eq_some_iff.1 h
  apply String.toList_injective
  simp [eq_append_of_isPrefixOf? hchars]

/-- Joins texts with a separator between neighbours. -/
def join (separator : String) (texts : List String) : String :=
  separator.intercalate texts

/-- A name between single quotes. -/
def quoted (name : String) : String :=
  "'" ++ name ++ "'"

end StackLinker.Text
