import Mathlib.Data.List.Nodup
import StackLinker.Fields

/-!
# Ordered fields as mappings

Fields are looked up from the front and written at the end.  Here the two are related to lists: what
is found is a member, and with distinct keys every member is found (`find?_of_mem`); writing pairs
with distinct keys lists them as they are (`ofPairs_of_nodup`).
-/

namespace StackLinker.Fields

variable {α : Type} {key : String} {value : α} {fields pairs : Fields α}

theorem find?_append (key : String) (first second : Fields α) :
    find? key (first ++ second) = (find? key first).or (find? key second) := by
  induction first with
  | nil => rfl
  | cons field rest ih =>
      obtain ⟨k, v⟩ := field
      by_cases hk : k = key <;> simp [find?, hk, ih]

theorem find?_eq_none_iff : find? key fields = none ↔ key ∉ keys fields := by
  rw [← contains_iff_mem_keys, contains, Option.not_isSome_iff_eq_none]

theorem find?_single_iff {other : String} {a : α} :
    find? key [(other, a)] = some value ↔ other = key ∧ a = value := by
  by_cases h : other = key <;> simp [find?, h]

theorem mem_of_find? (h : find? key fields = some value) : (key, value) ∈ fields := by
  induction fields with
  | nil => simp [find?] at h
  | cons field rest ih =>
      obtain ⟨k, v⟩ := field
      by_cases hk : k = key
      · simp only [find?, hk, if_true, Option.some.injEq] at h
        simp [hk, h]
      · simp only [find?, hk, if_false] at h
        exact List.mem_cons_of_mem _ (ih h)

/-- What is found under a key on one side has a counterpart on the other. -/
theorem exists_find?_of_forall₂ {R : String × α → String × α → Prop} {after : Fields α}
    (h : List.Forall₂ R fields after) (hkeys : ∀ {old new}, R old new → new.1 = old.1)
    (hfind : find? key fields = some value) :
    ∃ other, find? key after = some other ∧ R (key, value) (key, other) := by
  induction h with
  | nil => simp [find?] at hfind
  | @cons old new before after head _ ih =>
      obtain ⟨first, x⟩ := old
      obtain ⟨second, y⟩ := new
      obtain rfl : second = first := hkeys head
      by_cases hsame : second = key
      · simp only [find?, hsame, if_true, Option.some.injEq] at hfind ⊢
        exact ⟨y, rfl, hsame ▸ hfind ▸ head⟩
      · simp only [find?, hsame, if_false] at hfind ⊢
        exact ih hfind

theorem find?_of_mem (hnodup : (keys fields).Nodup) (h : (key, value) ∈ fields) :
    find? key fields = some value := by
  induction fields with
  | nil => simp at h
  | cons field rest ih =>
      obtain ⟨k, v⟩ := field
      simp only [keys, List.map_cons, List.nodup_cons] at hnodup
      rcases List.mem_cons.1 h with heq | h
      · simp [find?, Prod.mk.inj heq]
      · have hne : k ≠ key := by
          rintro rfl
          exact hnodup.1 (List.mem_map_of_mem h)
        simpa [find?, hne] using ih hnodup.2 h

/-- A key that is not present is written at the end. -/
theorem insert_of_notMem (value : α) (h : key ∉ keys fields) :
    insert key value fields = fields ++ [(key, value)] := by
  induction fields with
  | nil => rfl
  | cons field rest ih =>
      obtain ⟨k, v⟩ := field
      simp only [keys, List.map_cons, List.mem_cons, not_or] at h
      simp [insert, Ne.symm h.1, ih h.2]

/-- Writing pairs with distinct keys lists them as they are. -/
theorem ofPairs_of_nodup (h : (keys pairs).Nodup) : ofPairs pairs = pairs := by
  suffices hfold : ∀ fields : Fields α, (keys (fields ++ pairs)).Nodup →
      pairs.foldl (fun fields pair => fields.insert pair.1 pair.2) fields = fields ++ pairs from
    hfold [] h
  clear h
  intro fields hnodup
  induction pairs generalizing fields with
  | nil => simp
  | cons pair rest ih =>
      have hnew : pair.1 ∉ fields.keys := by
        simp only [keys, List.map_append, List.map_cons] at hnodup
        exact fun hmem => List.disjoint_of_nodup_append hnodup hmem List.mem_cons_self
      rw [List.foldl_cons, insert_of_notMem _ hnew, ih (fields ++ [pair]) (by simpa using hnodup)]
      simp

theorem mem_keys_insert {other : String} :
    other ∈ keys (insert key value fields) ↔ other ∈ keys fields ∨ other = key := by
  rw [keys_insert]
  by_cases h : key ∈ keys fields
  · rw [if_pos h]
    exact ⟨Or.inl, fun hor => hor.elim id fun heq => heq ▸ h⟩
  · simp [if_neg h]

theorem mem_keys_ofPairs : key ∈ keys (ofPairs pairs) ↔ key ∈ keys pairs := by
  suffices hfold : ∀ fields : Fields α,
      key ∈ keys (pairs.foldl (fun fields pair => fields.insert pair.1 pair.2) fields) ↔
        key ∈ keys fields ∨ key ∈ keys pairs from
    (hfold []).trans (by simp [keys])
  intro fields
  induction pairs generalizing fields with
  | nil => simp [keys]
  | cons pair rest ih =>
      rw [List.foldl_cons, ih, mem_keys_insert, or_assoc]
      simp [keys]

theorem mem_of_mem_insert {field : String × α} (h : field ∈ insert key value fields) :
    field = (key, value) ∨ field ∈ fields := by
  induction fields with
  | nil => exact Or.inl (List.mem_singleton.1 h)
  | cons first rest ih =>
      obtain ⟨k, v⟩ := first
      by_cases hk : k = key
      · rw [insert, if_pos hk, List.mem_cons, hk] at h
        exact h.imp_right (List.mem_cons_of_mem _)
      · rw [insert, if_neg hk, List.mem_cons] at h
        rcases h with rfl | h
        · exact Or.inr List.mem_cons_self
        · exact (ih h).imp_right (List.mem_cons_of_mem _)

theorem mem_of_mem_ofPairs {field : String × α} (h : field ∈ ofPairs pairs) : field ∈ pairs := by
  suffices hfold : ∀ fields : Fields α,
      field ∈ pairs.foldl (fun fields pair => fields.insert pair.1 pair.2) fields →
        field ∈ fields ∨ field ∈ pairs from
    (hfold [] h).resolve_left (List.not_mem_nil)
  clear h
  intro fields h
  induction pairs generalizing fields with
  | nil => exact Or.inl h
  | cons pair rest ih =>
      rcases ih _ h with hinsert | hrest
      · rcases mem_of_mem_insert hinsert with rfl | hfields
        · exact Or.inr List.mem_cons_self
        · exact Or.inl hfields
      · exact Or.inr (List.mem_cons_of_mem _ hrest)

theorem nodup_keys_insert (h : (keys fields).Nodup) : (keys (insert key value fields)).Nodup := by
  rw [keys_insert]
  split
  · exact h
  · rename_i hnew
    refine List.nodup_append.2 ⟨h, List.nodup_singleton _, fun a ha b hb heq => ?_⟩
    exact hnew (List.mem_singleton.1 hb ▸ heq ▸ ha)

/-- Written pairs have distinct keys. -/
theorem nodup_keys_ofPairs (pairs : Fields α) : (keys (ofPairs pairs)).Nodup := by
  suffices hfold : ∀ fields : Fields α, (keys fields).Nodup →
      (keys (pairs.foldl (fun fields pair => fields.insert pair.1 pair.2) fields)).Nodup from
    hfold [] List.nodup_nil
  intro fields hnodup
  induction pairs generalizing fields with
  | nil => exact hnodup
  | cons pair rest ih => exact ih _ (nodup_keys_insert hnodup)

/-- A key to which only one value is written holds it in the end. -/
theorem find?_ofPairs (hmem : (key, value) ∈ pairs)
    (hunique : ∀ other, (key, other) ∈ pairs → other = value) :
    find? key (ofPairs pairs) = some value := by
  suffices hfold : ∀ fields : Fields α, find? key fields = some value ∨ (key, value) ∈ pairs →
      find? key (pairs.foldl (fun fields pair => fields.insert pair.1 pair.2) fields) =
        some value from
    hfold [] (Or.inr hmem)
  clear hmem
  intro fields hfields
  induction pairs generalizing fields with
  | nil => simpa using hfields
  | cons pair rest ih =>
      refine ih (fun other hother => hunique other (List.mem_cons_of_mem _ hother)) _ ?_
      rw [find?_insert]
      by_cases hkey : key = pair.1
      · rw [if_pos hkey]
        exact Or.inl (congrArg some (hunique pair.2 (by simp [hkey])))
      · rw [if_neg hkey]
        refine hfields.imp_right fun hmem => (List.mem_cons.1 hmem).resolve_left ?_
        exact fun heq => hkey (congrArg Prod.fst heq)

end StackLinker.Fields
