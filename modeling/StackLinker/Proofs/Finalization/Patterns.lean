import StackLinker.Finalization
import StackLinker.Proofs.Config.Markers
import StackLinker.Proofs.Dependency.Uses
import StackLinker.Proofs.Pattern.Replacing

/-!
# Patterns without markers

Finalization takes the preserve marker off the names of placeholders.  A name that carries it once
is bare afterwards, and a name that carries it twice still carries it
(`Config.isMarked_bareName_iff`).

In a pattern, each hole gives way to a hole with the bare name, and nothing else is read differently
(`Config.pieces_barePattern`): a placeholder is written in braces again, and its bare name has no
closing brace.  What can happen is that the bare name starts with an exclamation mark.  Then the
hole has become an escape, and asks for no name any more.
-/

namespace StackLinker

/-! ## Names -/

namespace Config

variable {config : Config} {name bare : String}

/-- Whether a name starts with the preserve marker. -/
def IsMarked (config : Config) (name : String) : Prop :=
  config.preserveMarker ≠ "" ∧ config.preserveMarker.toList <+: name.toList

/-- Whether a name starts with the preserve marker twice. -/
def IsDoublyMarked (config : Config) (name : String) : Prop :=
  config.preserveMarker ≠ "" ∧
    config.preserveMarker.toList ++ config.preserveMarker.toList <+: name.toList

instance (config : Config) (name : String) : Decidable (config.IsMarked name) :=
  inferInstanceAs (Decidable (_ ∧ _))

instance (config : Config) (name : String) : Decidable (config.IsDoublyMarked name) :=
  inferInstanceAs (Decidable (_ ∧ _))

/-- A name with its marker taken off, if it carries one. -/
def bareName (config : Config) (name : String) : String :=
  (config.stripPreserve? name).getD name

theorem stripPreserve?_eq_some_iff : config.stripPreserve? name = some bare ↔
    config.preserveMarker ≠ "" ∧ name = config.preserveMarker ++ bare := by
  unfold stripPreserve?
  by_cases hempty : config.preserveMarker = ""
  · simp [hempty]
  · simp [hempty, Text.afterMarker?_eq_some_iff]

theorem stripPreserve?_eq_none_iff : config.stripPreserve? name = none ↔
    ¬ config.IsMarked name := by
  unfold stripPreserve? IsMarked
  by_cases hempty : config.preserveMarker = ""
  · simp [hempty]
  · simp [hempty, ← Text.isSome_afterMarker?_iff]

/-- A name that carries the marker is the marker followed by the bare name. -/
theorem eq_append_bareName (h : config.IsMarked name) :
    name = config.preserveMarker ++ config.bareName name := by
  cases hstrip : config.stripPreserve? name with
  | none => exact absurd h (stripPreserve?_eq_none_iff.1 hstrip)
  | some bare =>
      rw [bareName, hstrip, Option.getD_some]
      exact (stripPreserve?_eq_some_iff.1 hstrip).2

theorem bareName_of_not_isMarked (h : ¬ config.IsMarked name) : config.bareName name = name := by
  rw [bareName, stripPreserve?_eq_none_iff.2 h, Option.getD_none]

theorem bareName_eq_self_iff : config.bareName name = name ↔ ¬ config.IsMarked name := by
  refine ⟨fun h hmarked => ?_, bareName_of_not_isMarked⟩
  have heq := eq_append_bareName hmarked
  rw [h] at heq
  have hlength := congrArg String.length heq
  rw [String.length_append] at hlength
  have hmarker : config.preserveMarker.length = 0 := by omega
  exact hmarked.1 (String.length_eq_zero_iff.1 hmarker)

/-- A bare name carries the marker if the name carries it twice. -/
theorem isMarked_bareName_iff : config.IsMarked (config.bareName name) ↔
    config.IsDoublyMarked name := by
  by_cases hmarked : config.IsMarked name
  · have heq := congrArg String.toList (eq_append_bareName hmarked)
    rw [String.toList_append] at heq
    rw [IsMarked, IsDoublyMarked, heq, List.prefix_append_right_inj]
  · rw [bareName_of_not_isMarked hmarked]
    refine iff_of_false hmarked fun hdouble => hmarked ⟨hdouble.1, ?_⟩
    exact (List.prefix_append _ _).trans hdouble.2

/-- The characters of a bare name stand in the name. -/
theorem mem_of_mem_bareName {c : Char} (h : c ∈ (config.bareName name).toList) :
    c ∈ name.toList := by
  by_cases hmarked : config.IsMarked name
  · rw [eq_append_bareName hmarked, String.toList_append]
    exact List.mem_append_right _ h
  · rwa [bareName_of_not_isMarked hmarked] at h

/-! ## Placeholders -/

/-- A placeholder with the bare name. -/
def barePlaceholder (config : Config) (placeholder : Placeholder) : Placeholder :=
  ⟨config.bareName placeholder.name, placeholder.attr⟩

variable {placeholder : Placeholder} {inner : List Char}

theorem inner_barePlaceholder_eq_iff :
    Pattern.inner (config.barePlaceholder placeholder) = Pattern.inner placeholder ↔
      ¬ config.IsMarked placeholder.name := by
  rw [← bareName_eq_self_iff]
  unfold Pattern.inner barePlaceholder
  cases placeholder.attr <;> simp [String.toList_inj]

theorem head?_inner_of_isMarked (h : config.IsMarked placeholder.name) :
    (Pattern.inner placeholder).head? = config.preserveMarker.toList.head? := by
  obtain ⟨rest, hrest⟩ := h.2.trans (Pattern.name_prefix_inner placeholder)
  have hne : config.preserveMarker.toList ≠ [] := by simpa using h.1
  rw [← hrest, List.head?_append_of_ne_nil _ hne]

theorem notMem_inner_barePlaceholder {c : Char} (h : c ∉ Pattern.inner placeholder) :
    c ∉ Pattern.inner (config.barePlaceholder placeholder) := by
  intro hmem
  unfold Pattern.inner barePlaceholder at *
  cases hattr : placeholder.attr with
  | none =>
      simp only [hattr] at h hmem
      exact h (mem_of_mem_bareName hmem)
  | some attr =>
      simp only [hattr, List.mem_append, not_or] at h hmem
      exact hmem.elim (fun hname => h.1 (mem_of_mem_bareName hname)) h.2

/-- A placeholder that has been written with its bare name is read as that, or as an escape. -/
theorem ofHole?_inner_barePlaceholder (hread : Placeholder.ofHole? inner = some placeholder) :
    Placeholder.ofHole? (Pattern.inner (config.barePlaceholder placeholder)) =
      if (Pattern.inner (config.barePlaceholder placeholder)).head? = some '!' then none
      else some (config.barePlaceholder placeholder) := by
  have hdot : '.' ∉ (config.barePlaceholder placeholder).name.toList := by
    rw [← Pattern.inner_of_ofHole? hread] at hread
    obtain ⟨-, -, hdot, -⟩ := Pattern.ofHole?_inner hread
    exact fun hmem => hdot (mem_of_mem_bareName hmem)
  split
  · rename_i hescape
    rw [Placeholder.ofHole?, if_pos hescape]
  · rename_i hescape
    cases hagain : Placeholder.ofHole? (Pattern.inner (config.barePlaceholder placeholder)) with
    | some read => rw [Pattern.eq_of_ofHole?_inner hdot hagain]
    | none =>
        rw [Placeholder.ofHole?, if_neg hescape] at hagain
        split at hagain <;> simp at hagain

/-! ## Pieces -/

/-- A piece with the bare name in it. -/
def barePiece (config : Config) : Piece → Piece
  | .char c => .char c
  | .hole inner =>
    match Placeholder.ofHole? inner with
    | none => .hole inner
    | some placeholder => .hole (Pattern.inner (config.barePlaceholder placeholder))

theorem barePiece_of_read (hread : Placeholder.ofHole? inner = some placeholder) :
    config.barePiece (.hole inner) =
      .hole (Pattern.inner (config.barePlaceholder placeholder)) := by
  simp [barePiece, hread]

theorem bareText?_eq_some_iff {text : String} : config.bareText? placeholder = some text ↔
    config.IsMarked placeholder.name ∧ text = (config.barePlaceholder placeholder).text := by
  unfold bareText? barePlaceholder bareName
  cases hstrip : config.stripPreserve? placeholder.name with
  | none => simp [stripPreserve?_eq_none_iff.1 hstrip]
  | some bare =>
      have hmarked : config.IsMarked placeholder.name := by
        by_contra hnot
        simp [stripPreserve?_eq_none_iff.2 hnot] at hstrip
      simp [hmarked, eq_comm]

theorem bareText?_eq_none_iff : config.bareText? placeholder = none ↔
    ¬ config.IsMarked placeholder.name := by
  rw [bareText?, Option.map_eq_none_iff, stripPreserve?_eq_none_iff]

/-- A bare pattern is read piece by piece. -/
theorem pieces_barePattern (config : Config) (pattern : String) :
    Pattern.pieces (config.barePattern pattern) =
      (Pattern.pieces pattern).map config.barePiece := by
  have hpiece : ∀ piece ∈ Pattern.pieces pattern,
      Pattern.replacePiece config.bareText? piece = [config.barePiece piece] := by
    intro piece hmem
    rcases Pattern.replacePiece_cases config.bareText? piece with
      ⟨hstays, hnone⟩ | ⟨inner, placeholder, text, rfl, hread, htext, hgives⟩
    · rw [hstays]
      cases piece with
      | char c => rfl
      | hole inner =>
          cases hread : Placeholder.ofHole? inner with
          | none => simp [barePiece, hread]
          | some placeholder =>
              have hbare := bareText?_eq_none_iff.1 (hnone inner placeholder rfl hread)
              rw [barePiece_of_read hread, inner_barePlaceholder_eq_iff.2 hbare,
                Pattern.inner_of_ofHole? hread]
    · obtain ⟨-, rfl⟩ := bareText?_eq_some_iff.1 htext
      have hbrace : '}' ∉ Pattern.inner placeholder := by
        rw [Pattern.inner_of_ofHole? hread]
        exact Pattern.notMem_of_hole_mem hmem
      rw [hgives, barePiece_of_read hread,
        Pattern.pieces_text (notMem_inner_barePlaceholder hbrace)]
  have hreplace : Pattern.pieces (config.barePattern pattern) =
      (Pattern.pieces pattern).flatMap (Pattern.replacePiece config.bareText?) := by
    refine Pattern.pieces_replace ?_ (Or.inr ?_)
    · intro inner placeholder text _ _ htext
      obtain ⟨-, rfl⟩ := bareText?_eq_some_iff.1 htext
      exact Pattern.isClosed_text _
    · intro inner placeholder text _ _ htext
      obtain ⟨-, rfl⟩ := bareText?_eq_some_iff.1 htext
      exact Pattern.isSolid_text _
  rw [hreplace, List.flatMap_congr hpiece, List.map_eq_flatMap]

/-! ## Patterns -/

variable {pattern : String}

/-- A pattern stays as it is if none of its names carries the marker. -/
theorem barePattern_eq_self_iff : config.barePattern pattern = pattern ↔
    ∀ name ∈ Pattern.names pattern, ¬ config.IsMarked name := by
  constructor
  · intro h name hname
    obtain ⟨inner, placeholder, hmem, hread, rfl⟩ := Pattern.mem_names.1 hname
    have hpieces := pieces_barePattern config pattern
    rw [h] at hpieces
    have hsame : config.barePiece (.hole inner) = .hole inner :=
      List.map_inj_left.1 (hpieces.symm.trans (List.map_id _).symm) _ hmem
    rw [barePiece_of_read hread, Piece.hole.injEq, ← Pattern.inner_of_ofHole? hread] at hsame
    exact inner_barePlaceholder_eq_iff.1 hsame
  · intro h
    refine Pattern.replace_eq_self fun inner placeholder hmem hread => ?_
    exact bareText?_eq_none_iff.2
      (h _ (Pattern.mem_names.2 ⟨inner, placeholder, hmem, hread, rfl⟩))

/-- The names of a bare pattern are bare names of the pattern. -/
theorem exists_name_of_mem_barePattern {name : String}
    (h : name ∈ Pattern.names (config.barePattern pattern)) :
    ∃ old ∈ Pattern.names pattern, name = config.bareName old := by
  obtain ⟨inner, placeholder, hmem, hread, rfl⟩ := Pattern.mem_names.1 h
  rw [pieces_barePattern] at hmem
  obtain ⟨piece, hpiece, hbare⟩ := List.mem_map.1 hmem
  cases piece with
  | char c => simp [barePiece] at hbare
  | hole old =>
      cases hold : Placeholder.ofHole? old with
      | none =>
          obtain rfl : old = inner := by simpa [barePiece, hold] using hbare
          simp [hold] at hread
      | some before =>
          rw [barePiece_of_read hold, Piece.hole.injEq] at hbare
          rw [← hbare, ofHole?_inner_barePlaceholder hold] at hread
          split at hread
          · simp at hread
          · obtain rfl := Option.some.inj hread
            exact ⟨before.name, Pattern.mem_names.2 ⟨old, before, hpiece, hold, rfl⟩, rfl⟩

/-- A name that carries the marker twice still carries it in the bare pattern. -/
theorem bareName_mem_names {name : String} (hname : name ∈ Pattern.names pattern)
    (hdouble : config.IsDoublyMarked name) :
    config.bareName name ∈ Pattern.names (config.barePattern pattern) := by
  obtain ⟨inner, placeholder, hmem, hread, rfl⟩ := Pattern.mem_names.1 hname
  have hpiece : config.barePiece (.hole inner) ∈ Pattern.pieces (config.barePattern pattern) := by
    rw [pieces_barePattern]
    exact List.mem_map_of_mem hmem
  rw [barePiece_of_read hread] at hpiece
  refine Pattern.mem_names.2 ⟨_, config.barePlaceholder placeholder, hpiece, ?_, rfl⟩
  rw [ofHole?_inner_barePlaceholder hread, if_neg]
  -- Both names start as the marker does, and the one that was read does not start an escape.
  have hmarked : config.IsMarked placeholder.name :=
    ⟨hdouble.1, (List.prefix_append _ _).trans hdouble.2⟩
  have hstart := Pattern.head?_of_ofHole? hread
  rw [← Pattern.inner_of_ofHole? hread, head?_inner_of_isMarked hmarked] at hstart
  rwa [head?_inner_of_isMarked (show config.IsMarked (config.barePlaceholder placeholder).name from
    isMarked_bareName_iff.2 hdouble)]

/-- A bare pattern has no name with a marker if no name of the pattern carries it twice. -/
theorem unmarked_barePattern_iff :
    (∀ name ∈ Pattern.names (config.barePattern pattern), ¬ config.IsMarked name) ↔
      ∀ name ∈ Pattern.names pattern, ¬ config.IsDoublyMarked name := by
  constructor
  · intro h name hname hdouble
    exact h _ (bareName_mem_names hname hdouble) (isMarked_bareName_iff.2 hdouble)
  · intro h name hname hmarked
    obtain ⟨old, hold, rfl⟩ := exists_name_of_mem_barePattern hname
    exact h old hold (isMarked_bareName_iff.1 hmarked)

end Config

end StackLinker
