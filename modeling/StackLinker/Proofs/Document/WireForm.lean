import StackLinker.Proofs.Document.Reading
import StackLinker.Proofs.Value.Records

/-!
# Declarations keep their wire form

A declaration has many spellings: its fields may stand in an object in any order or in an array,
and a field that says nothing may be null, empty or absent.  The writer has a single one for all of
them.  What is read from any spelling is read again from what is written of it, unchanged in every
field, and is written in the same way again (`Record.roundTrips_of_ofJson`).

Two things could go wrong.  The writer leaves out optional fields, so the reader has to take an
absent field for just what the writer left out (`Record.omitsDefaults`).  And a section that is no
map is refused when it is read, so the sections have to be written as the maps that they were.
-/

namespace StackLinker

/-! ## Parts of a tree -/

namespace Json

/-- The trees directly below the root. -/
def parts : Json → List Json
  | .array items => items
  | .object members => members.map (·.2)
  | _ => []

theorem sizeOf_lt_of_mem_parts {json part : Json} (h : part ∈ json.parts) :
    sizeOf part < sizeOf json := by
  cases json with
  | array items =>
      have hless : sizeOf part < sizeOf items := List.sizeOf_lt_of_mem h
      simp only [Json.array.sizeOf_spec]
      omega
  | object members =>
      obtain ⟨member, hmember, rfl⟩ := List.mem_map.1 h
      have hless := List.sizeOf_lt_of_mem hmember
      rw [Prod.mk.sizeOf_spec] at hless
      simp only [Json.object.sizeOf_spec]
      omega
  | _ => simp [parts] at h

/-- Where nothing is repeated, nothing is repeated in the parts. -/
theorem merged_of_mem_parts {json part : Json} (hmerged : json.merged = json)
    (h : part ∈ json.parts) : part.merged = part := by
  cases json with
  | array items => exact merged_array_iff.1 hmerged part h
  | object members =>
      obtain ⟨member, hmember, rfl⟩ := List.mem_map.1 h
      exact (merged_object_iff.1 hmerged).2 member hmember
  | _ => simp [parts] at h

theorem merged_texts (names : List String) : (texts names).merged = texts names := by
  refine merged_array_iff.2 fun item hitem => ?_
  obtain ⟨name, -, rfl⟩ := List.mem_map.1 hitem
  rfl

end Json

namespace Decode

/-- A reader that changes the result of another one succeeds only if that one does. -/
theorem exists_of_map_eq_ok {α β : Type} {first : Result α} {f : α → β} {b : β}
    (h : first.map f = .ok b) : ∃ a, first = .ok a ∧ f a = b := by
  cases first with
  | error e => simp [Except.map] at h
  | ok a => exact ⟨a, rfl, Except.ok.inj h⟩

/-- What is read as an optional tree is there, and is not null. -/
theorem optional_ok_eq_some {json part : Json} (h : optional .ok json = .ok (some part)) :
    part = json ∧ part ≠ .null := by
  cases json <;> simp_all [optional, Except.map] <;> subst h <;> simp

namespace Layout

variable {δ : Type} {layout : Layout} {set : String → Json → δ → Result δ} {P : δ → Prop}

theorem readMembers_preserves {members : List (String × Json)} {read : List String}
    {draft last : δ}
    (hset : ∀ member ∈ members, ∀ {before after}, P before →
      set member.1 member.2 before = .ok after → P after)
    (hstart : P draft) (h : layout.readMembers set read members draft = .ok last) : P last := by
  induction members generalizing read draft with
  | nil => exact Except.ok.inj h ▸ hstart
  | cons member rest ih =>
      have hrest : ∀ other ∈ rest, ∀ {before after}, P before →
          set other.1 other.2 before = .ok after → P after :=
        fun other hother => hset other (List.mem_cons_of_mem _ hother)
      rw [readMembers] at h
      split at h
      · exact ih hrest hstart h
      · obtain ⟨-, -, h⟩ := exists_of_bind_eq_ok h
        obtain ⟨next, hnext, h⟩ := exists_of_bind_eq_ok h
        exact ih hrest (hset member List.mem_cons_self hstart hnext) h

theorem readItems_preserves {items : List Json} {index : Nat} {fields : List (String × Bool)}
    {draft last : δ}
    (hset : ∀ item ∈ items, ∀ {field before after}, P before →
      set field item before = .ok after → P after)
    (hstart : P draft) (h : layout.readItems set index fields items draft = .ok last) : P last := by
  induction items generalizing index fields draft with
  | nil =>
      rw [readItems] at h
      obtain ⟨-, -, h⟩ := exists_of_bind_eq_ok h
      exact Except.ok.inj h ▸ hstart
  | cons item rest ih =>
      cases fields with
      | nil => simp [readItems] at h
      | cons field fields =>
          rw [readItems] at h
          obtain ⟨next, hnext, h⟩ := exists_of_bind_eq_ok h
          exact ih (fun other hother => hset other (List.mem_cons_of_mem _ hother))
            (hset item List.mem_cons_self hstart hnext) h

/-- What holds of the blank draft and is kept by each field holds of the draft that is read, in
either spelling. -/
theorem read_preserves {json : Json} {blank last : δ}
    (hset : ∀ part ∈ json.parts, ∀ {field before after}, P before →
      set field part before = .ok after → P after)
    (hblank : P blank) (h : layout.read set blank json = .ok last) : P last := by
  cases json with
  | object members =>
      exact readMembers_preserves
        (fun member hmember => hset member.2 (List.mem_map_of_mem hmember)) hblank h
  | array items => exact readItems_preserves (fun item hitem => hset item hitem) hblank h
  | _ => simp [read] at h

end Layout

end Decode

/-! ## Declarations -/

namespace Record

variable {json : Json} {record : Record}

/-- The sections of a draft are parts of the tree that it is read from. -/
theorem sections_of_read {draft : Draft} (h : layout.read Draft.set {} json = .ok draft) :
    (∀ part, draft.metadata = some part → part ∈ json.parts) ∧
      ∀ part, draft.properties = some part → part ∈ json.parts := by
  refine Decode.Layout.read_preserves (P := fun draft =>
    (∀ part, draft.metadata = some part → part ∈ json.parts) ∧
      ∀ part, draft.properties = some part → part ∈ json.parts) ?_ (by simp) h
  rintro part hpart field before after ⟨hmetadata, hproperties⟩ hset
  unfold Draft.set at hset
  split at hset
  case h_5 =>
    obtain ⟨_, hread, rfl⟩ := Decode.exists_of_map_eq_ok hset
    refine ⟨?_, hproperties⟩
    rintro other rfl
    exact (Decode.optional_ok_eq_some hread).1 ▸ hpart
  case h_6 =>
    obtain ⟨_, hread, rfl⟩ := Decode.exists_of_map_eq_ok hset
    refine ⟨hmetadata, ?_⟩
    rintro other rfl
    exact (Decode.optional_ok_eq_some hread).1 ▸ hpart
  case h_7 => exact Except.ok.inj hset ▸ ⟨hmetadata, hproperties⟩
  -- The other fields leave the sections alone.
  all_goals
    obtain ⟨_, -, rfl⟩ := Decode.exists_of_map_eq_ok hset
    exact ⟨hmetadata, hproperties⟩

/-- A section is read as the value of an object: the one that is there, or the empty one. -/
theorem exists_object_of_mapSection {field : String} {written : Option Json} {v : Value}
    (h : mapSection field written = .ok v) : ∃ members, v = .ofJson (.object members) ∧
      (written = some (.object members) ∨ members = []) := by
  unfold mapSection at h
  split at h
  · exact ⟨[], (Except.ok.inj h).symm, Or.inr rfl⟩
  · exact ⟨_, (Except.ok.inj h).symm, Or.inl rfl⟩
  · simp at h

/-- The sections of a declaration that was read are values of objects, in which nothing is repeated
unless something is repeated in what was read. -/
theorem exists_objects_of_ofJson (h : ofJson json = .ok record) : ∃ metadata properties,
    record.metadata = .ofJson (.object metadata) ∧
    record.properties = .ofJson (.object properties) ∧
    (json.merged = json → (Json.object metadata).merged = .object metadata ∧
      (Json.object properties).merged = .object properties) := by
  obtain ⟨draft, hdraft, h⟩ := Decode.exists_of_bind_eq_ok h
  obtain ⟨typeName, -, h⟩ := Decode.exists_of_bind_eq_ok h
  obtain ⟨_, hproperties, h⟩ := Decode.exists_of_bind_eq_ok h
  obtain ⟨_, hmetadata, h⟩ := Decode.exists_of_bind_eq_ok h
  obtain rfl := Except.ok.inj h
  obtain ⟨properties, rfl, hwritten⟩ := exists_object_of_mapSection hproperties
  obtain ⟨metadata, rfl, hnoted⟩ := exists_object_of_mapSection hmetadata
  refine ⟨metadata, properties, rfl, rfl, fun hmerged => ⟨?_, ?_⟩⟩
  · rcases hnoted with hpart | rfl
    · exact Json.merged_of_mem_parts hmerged ((sections_of_read hdraft).1 _ hpart)
    · rfl
  · rcases hwritten with hpart | rfl
    · exact Json.merged_of_mem_parts hmerged ((sections_of_read hdraft).2 _ hpart)
    · rfl

/-- The optional fields that are left out of the wire form are those that say nothing. -/
structure OmitsDefaults (record : Record) : Prop where
  condition : record.toJson.member? "Condition" = none ↔ record.header.condition = none
  dependsOn : record.toJson.member? "DependsOn" = none ↔ record.header.dependsOn = []
  deletionPolicy :
    record.toJson.member? "DeletionPolicy" = none ↔ record.header.deletionPolicy = none
  metadata : record.toJson.member? "Metadata" = none ↔ record.metadata = .map []

/-- The keys that are written. -/
theorem mem_keys_recordMembers {header : Header} {omitted : Bool} {metadata properties : Json}
    {key : String} :
    key ∈ Fields.keys (Value.recordMembers header omitted metadata properties) ↔
      key = "Type" ∨ (key = "Condition" ∧ header.condition ≠ none) ∨
      (key = "DependsOn" ∧ header.dependsOn ≠ []) ∨
      (key = "DeletionPolicy" ∧ header.deletionPolicy ≠ none) ∨
      (key = "Metadata" ∧ omitted = false) ∨ key = "Properties" := by
  obtain ⟨typeName, condition, dependsOn, deletionPolicy⟩ := header
  cases condition <;> cases dependsOn <;> cases deletionPolicy <;> cases omitted <;>
    simp [Value.recordMembers, Fields.keys]

theorem omitsDefaults (record : Record) : record.OmitsDefaults := by
  have hempty : record.metadata.isEmptyMap = true ↔ record.metadata = .map [] := by
    unfold Value.isEmptyMap
    split <;> simp_all
  have habsent : ∀ key, record.toJson.member? key = none ↔
      key ∉ Fields.keys (Value.recordMembers record.header record.metadata.isEmptyMap
        record.metadata.toJson record.properties.toJson) := by
    intro key
    rw [toJson, toValue, Value.toJson_record, Json.member?, Fields.find?_eq_none_iff]
  constructor <;> simp [habsent, mem_keys_recordMembers, hempty]

/-- Nothing is repeated in what is written of a declaration if nothing is repeated in its
sections. -/
theorem merged_toJson (hmetadata : record.metadata.toJson.merged = record.metadata.toJson)
    (hproperties : record.properties.toJson.merged = record.properties.toJson) :
    record.toJson.merged = record.toJson := by
  rw [toJson, toValue, Value.toJson_record]
  have hkeys := keys_recordMembers record.header record.metadata.isEmptyMap
    record.metadata.toJson record.properties.toJson
  refine Json.merged_object_iff.2 ⟨hkeys.nodup (by decide), fun member hmember => ?_⟩
  simp only [Value.recordMembers, List.mem_cons, List.mem_append, List.mem_map,
    List.not_mem_nil, or_false] at hmember
  rcases hmember with rfl | (((⟨_, -, rfl⟩ | hdepends) | ⟨_, -, rfl⟩) | hwritten) | rfl
  · rfl
  · rfl
  · obtain rfl := List.mem_singleton.1 (List.mem_ite_nil_left.1 hdepends).2
    exact Json.merged_texts _
  · rfl
  · obtain rfl := List.mem_singleton.1 (List.mem_ite_nil_left.1 hwritten).2
    exact hmetadata
  · exact hproperties

/-- A declaration that was read is read again from its wire form, and is written in the same way
again.  The fields that are not written come back as they were, and nothing is repeated in the wire
form unless something is repeated in what was read first. -/
theorem roundTrips_of_ofJson (h : ofJson json = .ok record) :
    ∃ read, ofJson record.toJson = .ok read ∧ read = record ∧ read.toJson = record.toJson ∧
      record.OmitsDefaults ∧ (json.merged = json → record.toJson.merged = record.toJson) := by
  obtain ⟨members, others, hmetadata, hproperties, hmerged⟩ := exists_objects_of_ofJson h
  have hread : ofJson record.toJson = .ok record := by
    obtain ⟨header, metadata, properties⟩ := record
    obtain rfl : metadata = _ := hmetadata
    obtain rfl : properties = _ := hproperties
    have hsections := ofJson_toJson header (Value.ofJsonMembers members)
      (Value.ofJsonMembers others)
    rw [← Value.ofJson, ← Value.ofJson, Value.toJson_ofJson, Value.toJson_ofJson] at hsections
    exact hsections
  refine ⟨record, hread, rfl, rfl, omitsDefaults record, fun hjson => ?_⟩
  obtain ⟨hnoted, hwritten⟩ := hmerged hjson
  refine merged_toJson ?_ ?_
  · rw [hmetadata, Value.toJson_ofJson, hnoted]
  · rw [hproperties, Value.toJson_ofJson, hwritten]

/-- A queue, spelled as an array with a null for a condition, empty metadata, and a null in the
properties. -/
def spelledQueue : Json :=
  .array [.string "Queue", .null, .array [.string "Topic"], .string "Retain", .object [],
    .object [("Tags", .array [.null, .object [("Ref", .string "V")]]), ("Name", .string "jobs")]]

/-- The declaration of the queue. -/
def queue : Record where
  header := { typeName := "Queue", dependsOn := ["Topic"], deletionPolicy := some "Retain" }
  metadata := .map []
  properties := .map [
    ("Tags", .list [.null, .map [("Ref", .string "V")]]), ("Name", .string "jobs")]

theorem roundTrips_of_ofJson_queue : ofJson spelledQueue = .ok queue ∧
    ∃ read, ofJson queue.toJson = .ok read ∧ read = queue ∧ read.toJson = queue.toJson ∧
      queue.OmitsDefaults ∧ (spelledQueue.merged = spelledQueue →
        queue.toJson.merged = queue.toJson) := by
  have hread : ofJson spelledQueue = .ok queue := rfl
  exact ⟨hread, roundTrips_of_ofJson hread⟩

end Record

end StackLinker
