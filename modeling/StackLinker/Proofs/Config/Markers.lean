import StackLinker.Entity
import StackLinker.Proofs.Pattern.Reading

/-!
# Markers and names

A name is exempt because of a marker at its start, and the name of a provider resource starts with
the preserve marker.  In a pattern such names are written as placeholders and read again: up to the
first dot or the first closing brace.  What is read is exempt as well, as long as the markers have
no dot (`isExempt_of_read`).
-/

namespace StackLinker

/-- What the markers of a configuration must not have for written placeholders to be read as
meant. -/
structure Config.HasPlainMarkers (config : Config) : Prop where
  preserve_dot : '.' ∉ config.preserveMarker.toList
  preserve_brace : '}' ∉ config.preserveMarker.toList
  intrinsic_dot : ∀ marker ∈ config.intrinsicMarkers, '.' ∉ marker.toList
  synthetic_dot : '.' ∉ config.syntheticMarker.toList
  synthetic_brace : '}' ∉ config.syntheticMarker.toList

namespace Text

theorem mem_replaceFrom {pattern replacement : List Char} {c : Char} {skip : Nat} {text : List Char}
    (h : c ∈ replaceFrom pattern replacement skip text) : c ∈ replacement ∨ c ∈ text := by
  induction text generalizing skip with
  | nil => simp [replaceFrom] at h
  | cons d rest ih =>
      cases skip with
      | succ skip => exact (ih h).imp_right (List.mem_cons_of_mem _)
      | zero =>
          rw [replaceFrom] at h
          split at h
          · rcases List.mem_append.1 h with h | h
            · exact Or.inl h
            · exact (ih h).imp_right (List.mem_cons_of_mem _)
          · rcases List.mem_cons.1 h with rfl | h
            · exact Or.inr List.mem_cons_self
            · exact (ih h).imp_right (List.mem_cons_of_mem _)

/-- Replacing brings in no characters but those of the replacement. -/
theorem mem_replaceAll {pattern replacement text : String} {c : Char}
    (h : c ∈ (replaceAll pattern replacement text).toList) :
    c ∈ replacement.toList ∨ c ∈ text.toList := by
  unfold replaceAll at h
  split at h
  · simp only [String.toList_ofList, List.mem_append, List.mem_flatMap, List.mem_cons] at h
    rcases h with h | ⟨d, hd, rfl | h⟩
    · exact Or.inl h
    · exact Or.inr hd
    · exact Or.inl h
  · rw [String.toList_ofList] at h
    exact mem_replaceFrom h

theorem startsWith_iff {marker text : String} :
    startsWith marker text = true ↔ marker.toList <+: text.toList := by
  simp [startsWith]

theorem afterMarker?_append (marker rest : String) :
    afterMarker? marker (marker ++ rest) = some rest := by
  have hprefix : ∀ front back : List Char, front.isPrefixOf? (front ++ back) = some back := by
    intro front back
    induction front with
    | nil => rfl
    | cons c front ih => simp [List.isPrefixOf?, ih]
  rw [afterMarker?, String.toList_append, hprefix, Option.map_some, String.ofList_toList]

theorem afterMarker?_eq_some_iff {marker text rest : String} :
    afterMarker? marker text = some rest ↔ text = marker ++ rest :=
  ⟨eq_append_of_afterMarker?, by rintro rfl; exact afterMarker?_append marker rest⟩

theorem isSome_afterMarker?_iff {marker text : String} :
    (afterMarker? marker text).isSome = true ↔ marker.toList <+: text.toList := by
  simp [afterMarker?]

end Text

namespace Config

variable {config : Config} {key : String}

/-- A name is exempt because of a marker at its start. -/
theorem isExempt_iff : config.isExempt key = true ↔ ∃ marker : String, marker ≠ "" ∧
    (marker ∈ config.intrinsicMarkers ∨ marker = config.preserveMarker) ∧
    marker.toList <+: key.toList := by
  unfold isExempt isIntrinsic stripPreserve?
  rw [Bool.or_eq_true, List.any_eq_true]
  constructor
  · rintro (⟨marker, hmem, h⟩ | h)
    · simp only [Bool.and_eq_true, Bool.not_eq_true', String.isEmpty_eq_false_iff] at h
      exact ⟨marker, h.1, Or.inl hmem, Text.startsWith_iff.1 h.2⟩
    · split at h
      · simp at h
      · rename_i hempty
        exact ⟨config.preserveMarker, by simpa using hempty, Or.inr rfl,
          Text.isSome_afterMarker?_iff.1 h⟩
  · rintro ⟨marker, hne, hmem | rfl, hprefix⟩
    · refine Or.inl ⟨marker, hmem, ?_⟩
      simp [hne, Text.startsWith_iff.2 hprefix]
    · refine Or.inr ?_
      rw [if_neg (by simpa using hne)]
      exact Text.isSome_afterMarker?_iff.2 hprefix

/-- The name of a provider resource carries the preserve marker. -/
theorem isExempt_resourceName (hmark : config.preserveMarker ≠ "") (target : Entity) :
    config.isExempt (target.resourceName config) = true := by
  refine isExempt_iff.2 ⟨config.preserveMarker, hmark, Or.inr rfl, ?_⟩
  rw [Entity.resourceName, String.toList_append]
  exact List.prefix_append _ _

/-- Behind the marker stands the identifier. -/
theorem stripPreserve?_resourceName (hmark : config.preserveMarker ≠ "") (target : Entity) :
    config.stripPreserve? (target.resourceName config) = some (target.logicalId config) := by
  rw [stripPreserve?, if_neg (by simpa using hmark), Entity.resourceName, Text.afterMarker?_append]

theorem notMem_resourceName (hmarkers : config.HasPlainMarkers) {target : Entity}
    (hname : '}' ∉ target.fullName.toList) : '}' ∉ (target.resourceName config).toList := by
  rw [Entity.resourceName, String.toList_append, List.mem_append]
  rintro (h | h)
  · exact hmarkers.preserve_brace h
  · rcases Text.mem_replaceAll h with h | h
    · simp at h
    · exact hname h

/-- The name that is read from a placeholder for an exempt name is exempt. -/
theorem isExempt_of_read (hmarkers : config.HasPlainMarkers) {placeholder read : Placeholder}
    (hexempt : config.isExempt placeholder.name = true)
    (hread : Placeholder.ofHole? (Pattern.inner placeholder) = some read) :
    config.isExempt read.name = true := by
  obtain ⟨marker, hne, hmem, hprefix⟩ := isExempt_iff.1 hexempt
  have hdot : '.' ∉ marker.toList := by
    rcases hmem with hmem | rfl
    · exact hmarkers.intrinsic_dot marker hmem
    · exact hmarkers.preserve_dot
  have hinner : marker.toList <+: Pattern.inner placeholder :=
    hprefix.trans (Pattern.name_prefix_inner placeholder)
  obtain ⟨rest, heq, -, hrest⟩ := Pattern.ofHole?_inner hread
  refine isExempt_iff.2 ⟨marker, hne, hmem, ?_⟩
  rw [heq] at hinner
  rcases List.prefix_or_prefix_of_prefix hinner (List.prefix_append _ _) with h | ⟨tail, htail⟩
  · exact h
  · -- Behind the name that is read comes a dot, which the marker does not have.
    rw [← htail, List.prefix_append_right_inj] at hinner
    cases tail with
    | nil => exact ⟨[], by simpa using htail.symm⟩
    | cons c tail =>
        obtain ⟨more, rfl⟩ := hinner
        rcases hrest with hnil | hhead
        · simp at hnil
        · have hc : c = '.' := by simpa using hhead
          refine absurd ?_ hdot
          rw [← htail, hc]
          simp

end Config

end StackLinker
