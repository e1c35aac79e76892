import StackLinker.Proofs.Value.Mapping
import StackLinker.Value.Record

/-!
# Declarations are read back

`Record.ofJson` asks of a declaration that its two sections are maps.  Conversely, nothing else can
go wrong when a written declaration is read: the writer leaves out what says nothing and writes
every other field once, in the order of the layout.  So a declaration survives being written and
read as soon as its sections are maps (`Value.isDeclaration_iff`), as they are in one that was read
itself (`Record.isDeclaration_of_ofJson`).
-/

namespace StackLinker

namespace Decode

/-- A reader that goes on from another one succeeds only if both do. -/
theorem exists_of_bind_eq_ok {α β : Type} {first : Result α} {next : α → Result β} {b : β}
    (h : first >>= next = .ok b) : ∃ a, first = .ok a ∧ next a = .ok b := by
  cases first with
  | error e => simp [bind, Except.bind] at h
  | ok a => exact ⟨a, rfl, h⟩

theorem each_string (names : List String) : each string (names.map .string) = .ok names := by
  induction names with
  | nil => rfl
  | cons name rest ih => rw [List.map_cons, each, ih]; rfl

/-- Distinct fields of a record are read one after the other. -/
theorem Layout.readMembers_eq_foldlM {δ : Type} {layout : Layout}
    {set : String → Json → δ → Result δ} {members : List (String × Json)} {read : List String}
    (hknown : Fields.keys members ⊆ layout.names) (hnodup : (Fields.keys members).Nodup)
    (hnew : ∀ key ∈ Fields.keys members, key ∉ read) (draft : δ) :
    layout.readMembers set read members draft =
      members.foldlM (fun draft member => set member.1 member.2 draft) draft := by
  induction members generalizing read draft with
  | nil => rfl
  | cons member rest ih =>
      simp only [Fields.keys, List.map_cons, List.cons_subset, List.nodup_cons,
        List.forall_mem_cons] at hknown hnodup hnew
      have hrest : ∀ key ∈ Fields.keys rest, key ∉ member.1 :: read := fun key hkey =>
        List.not_mem_cons_of_ne_of_not_mem (ne_of_mem_of_not_mem hkey hnodup.1) (hnew.2 key hkey)
      rw [readMembers, if_neg (by simp [hknown.1]), check, if_neg (by simp [hknown.1]),
        if_neg hnew.1, List.foldlM_cons]
      exact congrArg _ (funext fun next => ih hknown.2 hnodup.2 hrest next)

/-! ### Writing with parts left out

A written record is a concatenation of parts, some of which may be missing. -/

theorem keys_optional_sublist {α : Type} (key : String) (o : Option α) (write : α → Json) :
    (Fields.keys (o.toList.map fun a => (key, write a))).Sublist [key] := by
  cases o <;> simp [Fields.keys]

theorem keys_unless_sublist (key : String) (omitted : Bool) (written : Json) :
    (Fields.keys (if omitted then [] else [(key, written)])).Sublist [key] := by
  cases omitted <;> simp [Fields.keys]

section Reading

variable {δ : Type} {set : δ → String × Json → Result δ} {draft next : δ}
  {first second : List (String × Json)}

theorem foldlM_then (h : first.foldlM set draft = .ok next) :
    (first ++ second).foldlM set draft = second.foldlM set next := by
  rw [List.foldlM_append, h]
  rfl

theorem foldlM_single {member : String × Json} (h : set draft member = .ok next) :
    [member].foldlM set draft = .ok next := by
  rw [List.foldlM_cons, h]
  rfl

-- Where a part is missing, the draft says already what the part would say.

theorem foldlM_optional {α : Type} {key : String} {o : Option α} {write : α → Json}
    (hnone : o = none → draft = next)
    (hsome : ∀ a, o = some a → set draft (key, write a) = .ok next) :
    (o.toList.map fun a => (key, write a)).foldlM set draft = .ok next := by
  cases o with
  | none => exact congrArg Except.ok (hnone rfl)
  | some a => exact foldlM_single (hsome a rfl)

theorem foldlM_unless {omitted : Bool} {member : String × Json}
    (homitted : omitted = true → draft = next)
    (hread : omitted = false → set draft member = .ok next) :
    (if omitted then [] else [member]).foldlM set draft = .ok next := by
  cases omitted with
  | true => exact congrArg Except.ok (homitted rfl)
  | false => exact foldlM_single (hread rfl)

end Reading

end Decode

namespace Record

/-- The written fields are among the known ones, in their order. -/
theorem keys_recordMembers (header : Header) (omitted : Bool) (metadata properties : Json) :
    (Fields.keys (Value.recordMembers header omitted metadata properties)).Sublist
      layout.names := by
  have hall := (((Decode.keys_optional_sublist "Condition" header.condition .string).append
    (Decode.keys_unless_sublist "DependsOn" header.dependsOn.isEmpty
      (.texts header.dependsOn))).append
    (Decode.keys_optional_sublist "DeletionPolicy" header.deletionPolicy .string)).append
    (Decode.keys_unless_sublist "Metadata" omitted metadata)
  simpa [Value.recordMembers, Fields.keys, layout, Decode.Layout.names, Function.comp_def] using
    hall.append (List.Sublist.refl ["Properties"])

/-- Reads one written field. -/
def Draft.setMember (draft : Draft) (member : String × Json) : Decode.Result Draft :=
  Draft.set member.1 member.2 draft

section Reading

variable {draft : Draft}

private theorem foldlM_condition (condition : Option String) (hdraft : draft.condition = none) :
    (condition.toList.map fun c => ("Condition", Json.string c)).foldlM Draft.setMember draft =
      .ok { draft with condition := condition } :=
  Decode.foldlM_optional (by rintro rfl; rw [← hdraft]) (by rintro _ rfl; rfl)

private theorem foldlM_deletionPolicy (policy : Option String)
    (hdraft : draft.deletionPolicy = none) :
    (policy.toList.map fun p => ("DeletionPolicy", Json.string p)).foldlM Draft.setMember draft =
      .ok { draft with deletionPolicy := policy } :=
  Decode.foldlM_optional (by rintro rfl; rw [← hdraft]) (by rintro _ rfl; rfl)

private theorem foldlM_dependsOn (names : List String) (hdraft : draft.dependsOn = []) :
    (if names.isEmpty then [] else [("DependsOn", Json.texts names)]).foldlM
      Draft.setMember draft = .ok { draft with dependsOn := names } := by
  refine Decode.foldlM_unless (fun hempty => ?_) fun _ => ?_
  · rw [List.isEmpty_iff.1 hempty, ← hdraft]
  · rw [Draft.setMember, Draft.set, Json.texts, Decode.list, Decode.each_string]
    rfl

private theorem foldlM_metadata (omitted : Bool) (members : Fields Json)
    (hdraft : draft.metadata = none) :
    (if omitted then [] else [("Metadata", Json.object members)]).foldlM Draft.setMember draft =
      .ok { draft with metadata := if omitted then none else some (.object members) } :=
  Decode.foldlM_unless (by rintro rfl; rw [if_pos rfl, ← hdraft]) (by rintro rfl; rfl)

/-- The draft that the fields of a written declaration leave behind. -/
theorem read_recordMembers (header : Header) (omitted : Bool) (metadata properties : Fields Json) :
    layout.read Draft.set {}
      (.object (Value.recordMembers header omitted (.object metadata) (.object properties))) =
    .ok {
      typeName := some header.typeName
      condition := header.condition
      dependsOn := header.dependsOn
      deletionPolicy := header.deletionPolicy
      metadata := if omitted then none else some (.object metadata)
      properties := some (.object properties) } := by
  have hkeys := keys_recordMembers header omitted (.object metadata) (.object properties)
  have htype : Draft.set "Type" (.string header.typeName) {} =
      .ok { typeName := some header.typeName } := rfl
  rw [Decode.Layout.read,
    Decode.Layout.readMembers_eq_foldlM hkeys.subset (hkeys.nodup (by decide)) (by simp),
    Value.recordMembers, List.foldlM_cons, htype]
  simp only [List.append_assoc]
  exact (Decode.foldlM_then (foldlM_condition header.condition rfl)).trans <|
    (Decode.foldlM_then (foldlM_dependsOn header.dependsOn rfl)).trans <|
    (Decode.foldlM_then (foldlM_deletionPolicy header.deletionPolicy rfl)).trans <|
    Decode.foldlM_then (foldlM_metadata omitted metadata rfl)

end Reading

end Record

namespace Value

theorem toJson_record (header : Header) (metadata properties : Value) :
    (record header metadata properties).toJson =
      .object (recordMembers header metadata.isEmptyMap metadata.toJson properties.toJson) := by
  rw [toJson]

theorem toJson_map (entries : Fields Value) :
    (map entries).toJson = .object (toJsonEntries entries) := by
  rw [toJson]

end Value

/-- A declaration whose sections are maps is read from its wire form, section by section. -/
theorem Record.ofJson_toJson (header : Header) (metadata properties : Fields Value) :
    ofJson (Value.record header (.map metadata) (.map properties)).toJson = .ok {
      header := header
      metadata := Value.ofJson (Value.map metadata).toJson
      properties := Value.ofJson (Value.map properties).toJson } := by
  rw [Value.toJson_record, Value.toJson_map, Value.toJson_map, ofJson, read_recordMembers]
  -- Empty metadata are not written, and absent ones are read as an empty map.
  cases metadata with
  | nil => rfl
  | cons entry rest => rfl

namespace Value

/-- Whether a value is a well-formed declaration: its sections are maps, and what is read from its
wire form is the same declaration, with the same header and the same wire form. -/
def IsDeclaration (v : Value) : Prop :=
  ∃ read metadata properties, v = .record read.header (.map metadata) (.map properties) ∧
    Record.ofJson v.toJson = .ok read ∧ read.toJson = v.toJson

theorem isDeclaration_iff {v : Value} : v.IsDeclaration ↔
    ∃ header metadata properties, v = .record header (.map metadata) (.map properties) := by
  constructor
  · rintro ⟨read, metadata, properties, hv, -, -⟩
    exact ⟨read.header, metadata, properties, hv⟩
  · rintro ⟨header, metadata, properties, rfl⟩
    refine ⟨_, metadata, properties, rfl, Record.ofJson_toJson header metadata properties, ?_⟩
    have hempty : (ofJson (map metadata).toJson).isEmptyMap = (map metadata).isEmptyMap := by
      cases metadata <;> rfl
    rw [Record.toJson, Record.toValue, toJson_record, toJson_record, hempty, toJson_ofJson,
      toJson_ofJson]

end Value

namespace Record

variable {json : Json} {record : Record}

theorem exists_map_of_mapSection {field : String} {written : Option Json} {v : Value}
    (h : mapSection field written = .ok v) : ∃ entries, v = .map entries := by
  unfold mapSection at h
  split at h
  · exact ⟨[], (Except.ok.inj h).symm⟩
  · exact ⟨_, (Except.ok.inj h).symm⟩
  · simp at h

/-- What is read is a declaration. -/
theorem isDeclaration_of_ofJson (h : ofJson json = .ok record) : record.toValue.IsDeclaration := by
  obtain ⟨draft, -, h⟩ := Decode.exists_of_bind_eq_ok h
  obtain ⟨typeName, -, h⟩ := Decode.exists_of_bind_eq_ok h
  obtain ⟨properties, hproperties, h⟩ := Decode.exists_of_bind_eq_ok h
  obtain ⟨metadata, hmetadata, h⟩ := Decode.exists_of_bind_eq_ok h
  obtain rfl := Except.ok.inj h
  obtain ⟨entries, rfl⟩ := exists_map_of_mapSection hmetadata
  obtain ⟨others, rfl⟩ := exists_map_of_mapSection hproperties
  exact Value.isDeclaration_iff.2 ⟨_, entries, others, rfl⟩

end Record

end StackLinker
