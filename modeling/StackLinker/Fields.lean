/-!
# Ordered fields

A mapping that remembers the order in which its keys first arrived.  Writing to a key that is
present keeps its place.
-/

namespace StackLinker

/-- Keys with their values, in order of first arrival. -/
abbrev Fields (α : Type) := List (String × α)

namespace Fields

variable {α β : Type}

/-- The value of a key. -/
def find? (key : String) : Fields α → Option α
  | [] => none
  | (k, v) :: rest => if k = key then some v else find? key rest

/-- Whether a key is present. -/
def contains (key : String) (fields : Fields α) : Bool :=
  (fields.find? key).isSome

/-- The keys in order. -/
def keys (fields : Fields α) : List String :=
  fields.map (·.1)

/-- Writes a value: in place when the key is present, at the end otherwise. -/
def insert (key : String) (value : α) : Fields α → Fields α
  | [] => [(key, value)]
  | (k, v) :: rest => if k = key then (k, value) :: rest else (k, v) :: insert key value rest

/-- Writes a value unless the key is present already. -/
def insertNew (key : String) (value : α) (fields : Fields α) : Fields α :=
  if fields.contains key then fields else fields ++ [(key, value)]

/-- The mapping that remains after writing pairs one after the other. -/
def ofPairs (pairs : List (String × α)) : Fields α :=
  pairs.foldl (fun fields pair => fields.insert pair.1 pair.2) []

theorem find?_insert (key other : String) (value : α) (fields : Fields α) :
    (fields.insert key value).find? other =
      if other = key then some value else fields.find? other := by
  induction fields with
  | nil => simp [insert, find?, eq_comm]
  | cons field rest ih =>
    obtain ⟨k, v⟩ := field
    by_cases hk : k = key
    · by_cases ho : other = key
      · simp [insert, find?, hk, ho]
      · simp [insert, find?, hk, ho, Ne.symm ho]
    · by_cases ho : k = other
      · simp [insert, find?, ho, ho ▸ hk]
      · simp [insert, find?, hk, ho, ih]

theorem contains_iff_mem_keys {key : String} {fields : Fields α} :
    fields.contains key = true ↔ key ∈ fields.keys := by
  induction fields with
  | nil => simp [contains, find?, keys]
  | cons field rest ih =>
    obtain ⟨k, v⟩ := field
    by_cases hk : k = key
    · simp [contains, find?, keys, hk]
    · simpa [contains, find?, keys, hk, Ne.symm hk] using ih

/-- A write leaves the order of the keys alone and adds a new key at the end. -/
theorem keys_insert (key : String) (value : α) (fields : Fields α) :
    (fields.insert key value).keys =
      if key ∈ fields.keys then fields.keys else fields.keys ++ [key] := by
  induction fields with
  | nil => simp [insert, keys]
  | cons field rest ih =>
    obtain ⟨k, v⟩ := field
    by_cases hk : k = key
    · simp [insert, keys, hk]
    · simp only [keys] at ih
      by_cases hmem : key ∈ rest.map (·.1) <;>
        simp_all [insert, keys, Ne.symm hk]

end Fields

end StackLinker
