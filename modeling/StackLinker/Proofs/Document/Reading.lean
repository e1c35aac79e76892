import StackLinker.Document.Codec
import StackLinker.Proofs.Value.Mapping
import StackLinker.Schema

/-!
# Reading documents that fit the schema

A tree that the schema takes for a document is read as one, and the values of all declarations in
it are expressions (`exists_of_isDocument`).  The reader refuses repeated fields, about which the
schema says nothing, so nothing may be repeated in the tree; `Json.merged` settles repetitions, and
where it changes nothing, there are none.

Declarations and documents are records, and records are read field by field.  What is known of a
draft after some fields is an invariant, `Draft.Fits`; each field that fits the schema can be read
and keeps it.
-/

namespace StackLinker

/-! ## Settled repetitions -/

namespace Json

theorem mergedItems_eq_map (items : List Json) : mergedItems items = items.map merged := by
  induction items with
  | nil => rfl
  | cons x xs ih => rw [mergedItems, ih, List.map_cons]

theorem mergedMembers_eq_map (members : List (String × Json)) :
    mergedMembers members = members.map fun member => (member.1, member.2.merged) := by
  induction members with
  | nil => rfl
  | cons member rest ih => rw [mergedMembers, ih, List.map_cons]

theorem keys_mergedMembers (members : List (String × Json)) :
    Fields.keys (mergedMembers members) = Fields.keys members := by
  simp [mergedMembers_eq_map, Fields.keys]

/-- Nothing is repeated in an array if nothing is repeated in its items. -/
theorem merged_array_iff {items : List Json} :
    (array items).merged = .array items ↔ ∀ item ∈ items, item.merged = item := by
  rw [merged, mergedItems_eq_map, Json.array.injEq]
  constructor
  · intro h item hitem
    exact List.map_eq_map_iff.1 (h.trans (List.map_id items).symm) item hitem
  · intro h
    exact (List.map_congr_left h).trans (List.map_id items)

/-- Nothing is repeated in an object if its keys are distinct and nothing is repeated in its
members. -/
theorem merged_object_iff {members : List (String × Json)} :
    (object members).merged = .object members ↔
      (Fields.keys members).Nodup ∧ ∀ member ∈ members, member.2.merged = member.2 := by
  rw [merged, Json.object.injEq]
  have hsettled : (Fields.keys members).Nodup →
      Fields.ofPairs (mergedMembers members) =
        members.map fun member => (member.1, member.2.merged) := by
    intro hnodup
    rw [Fields.ofPairs_of_nodup (by rwa [keys_mergedMembers]), mergedMembers_eq_map]
  constructor
  · intro h
    have hnodup : (Fields.keys members).Nodup := h ▸ Fields.nodup_keys_ofPairs _
    refine ⟨hnodup, fun member hmember => ?_⟩
    have hsame := List.map_eq_map_iff.1
      (((hsettled hnodup).symm.trans h).trans (List.map_id members).symm) member hmember
    exact congrArg Prod.snd hsame
  · rintro ⟨hnodup, hmembers⟩
    rw [hsettled hnodup]
    refine (List.map_congr_left fun member hmember => ?_).trans (List.map_id members)
    rw [hmembers member hmember]
    rfl

mutual

/-- Where repetitions are settled, there is nothing left to settle. -/
theorem merged_merged : ∀ json : Json, json.merged.merged = json.merged
  | .null => rfl
  | .bool _ => rfl
  | .number _ => rfl
  | .string _ => rfl
  | .array items => merged_array_iff.2 (merged_of_mem_mergedItems items)
  | .object members => merged_object_iff.2 ⟨Fields.nodup_keys_ofPairs _, fun member hmember =>
      merged_of_mem_mergedMembers members member (Fields.mem_of_mem_ofPairs hmember)⟩

theorem merged_of_mem_mergedItems :
    ∀ items : List Json, ∀ item ∈ mergedItems items, item.merged = item
  | [] => by simp [mergedItems]
  | x :: xs => List.forall_mem_cons.2 ⟨merged_merged x, merged_of_mem_mergedItems xs⟩

theorem merged_of_mem_mergedMembers :
    ∀ members : List (String × Json), ∀ member ∈ mergedMembers members,
      member.2.merged = member.2
  | [] => by simp [mergedMembers]
  | (_, x) :: rest => List.forall_mem_cons.2 ⟨merged_merged x, merged_of_mem_mergedMembers rest⟩

end

end Json

/-! ## Records -/

namespace Decode

/-- Distinct fields are read one after the other, if each of them can be read. -/
theorem Layout.exists_readMembers {δ : Type} {layout : Layout} {set : String → Json → δ → Result δ}
    {P : List String → δ → Prop} {members : List (String × Json)}
    (hset : ∀ member ∈ members, ∀ {read draft}, P read draft → member.1 ∈ layout.names ∧
      ∃ next, set member.1 member.2 draft = .ok next ∧ P (member.1 :: read) next)
    (hnodup : (Fields.keys members).Nodup) {read : List String}
    (hnew : ∀ key ∈ Fields.keys members, key ∉ read) {draft : δ} (hstart : P read draft) :
    ∃ last, layout.readMembers set read members draft = .ok last ∧
      P ((Fields.keys members).reverse ++ read) last := by
  induction members generalizing read draft with
  | nil => exact ⟨draft, rfl, hstart⟩
  | cons member rest ih =>
      simp only [Fields.keys, List.map_cons, List.nodup_cons, List.forall_mem_cons] at hnodup hnew
      obtain ⟨hknown, next, hnext, hP⟩ := hset member List.mem_cons_self hstart
      obtain ⟨last, hlast, hend⟩ := ih
        (fun other hother => hset other (List.mem_cons_of_mem _ hother)) hnodup.2
        (fun key hkey => List.not_mem_cons_of_ne_of_not_mem
          (ne_of_mem_of_not_mem hkey hnodup.1) (hnew.2 key hkey)) hP
      refine ⟨last, ?_, by simpa [Fields.keys] using hend⟩
      rw [readMembers, if_neg (by simp [hknown]), check, if_neg (by simp [hknown]),
        if_neg hnew.1, hnext]
      exact hlast

theorem exists_each_string {items : List Json} (h : items.all Schema.isText = true) :
    ∃ texts, each string items = .ok texts := by
  induction items with
  | nil => exact ⟨[], rfl⟩
  | cons x xs ih =>
      simp only [List.all_cons, Bool.and_eq_true] at h
      obtain ⟨texts, htexts⟩ := ih h.2
      cases x <;> simp [Schema.isText] at h
      exact ⟨_ :: texts, by rw [each, htexts]; rfl⟩

theorem exists_list_string {json : Json} (h : Schema.isTextList json = true) :
    ∃ texts, list string json = .ok texts := by
  cases json <;> simp only [Schema.isTextList, Bool.false_eq_true] at h
  exact exists_each_string h

/-- The name of a variant is read. -/
theorem exists_variantOf {α : Type} {variants : List (String × α)} {name : String}
    (h : name ∈ Fields.keys variants) : ∃ a, variantOf variants name = .ok a := by
  obtain ⟨a, ha⟩ := Option.isSome_iff_exists.1 (Fields.contains_iff_mem_keys.2 h)
  exact ⟨a, by rw [variantOf, ha]⟩

/-- What is there is read as such. -/
theorem optional_of_ne_null {α : Type} {item : Json → Result α} {json : Json} {a : α}
    (hnull : json ≠ .null) (h : item json = .ok a) : optional item json = .ok (some a) := by
  cases json with
  | null => exact absurd rfl hnull
  | _ => simp only [optional, h, Except.map]

end Decode

/-! ## Declarations -/

namespace EntityDeclaration

/-- The values of a declaration and of all below it are expressions of the schema. -/
def HasExpressions (declaration : EntityDeclaration) : Prop :=
  ∀ separator parent, ∀ declared ∈ declaration.listing separator parent, ∀ json,
    declared.2.value = some json → Schema.isExpression json = true

theorem mem_listingAll {separator : String} {parent : Option String}
    {declarations : List EntityDeclaration} {declared : String × EntityDeclaration} :
    declared ∈ listingAll separator parent declarations ↔
      ∃ declaration ∈ declarations, declared ∈ declaration.listing separator parent := by
  induction declarations with
  | nil => simp [listingAll]
  | cons declaration rest ih => simp [listingAll, ih]

/-- Reads one field, the children included. -/
def Draft.read (field : String) (json : Json) (draft : Draft) : Decode.Result Draft :=
  if field = "entities" then
    (childrenOfJson json).map fun children => { draft with children := children }
  else draft.set field json

/-- Declarations are read like other records. -/
theorem readMembers_eq (read : List String) (members : List (String × Json)) (draft : Draft) :
    readMembers read members draft = layout.readMembers Draft.read read members draft := by
  induction members generalizing read draft with
  | nil => rfl
  | cons member rest ih =>
      obtain ⟨field, json⟩ := member
      have hstrict : layout.ignoresUnknown = false := rfl
      by_cases hfield : field = "entities" <;>
        simp [readMembers, Decode.Layout.readMembers, Draft.read, hstrict, hfield, ih]

/-- What is known of a draft once some fields have been read. -/
structure Draft.Fits (read : List String) (draft : Draft) : Prop where
  name : "name" ∈ read → draft.name.isSome = true
  kind : "kind" ∈ read → draft.kind.isSome = true
  value : ∀ json, draft.value = some json → Schema.isExpression json = true
  children : ∀ child ∈ draft.children, child.HasExpressions

theorem Draft.fits_blank : Draft.Fits [] {} := ⟨by simp, by simp, by simp, by simp⟩

theorem Draft.Fits.cons {read : List String} {draft : Draft} (h : draft.Fits read) (field : String)
    (hname : field ≠ "name") (hkind : field ≠ "kind") : draft.Fits (field :: read) where
  name hmem := h.name ((List.mem_cons.1 hmem).resolve_left hname.symm)
  kind hmem := h.kind ((List.mem_cons.1 hmem).resolve_left hkind.symm)
  value := h.value
  children := h.children

/-- A field that fits the schema can be read. -/
theorem Draft.Fits.set {read : List String} {draft : Draft} (h : draft.Fits read) {field : String}
    {json : Json} (hfield : Schema.isEntityField field json = true) :
    field ∈ layout.names ∧ ∃ next, draft.set field json = .ok next ∧ next.Fits (field :: read) := by
  unfold Schema.isEntityField at hfield
  split at hfield
  -- The fields come in the order of the layout; only the name and the kind are required.
  · cases json <;> simp [Schema.isOwnName] at hfield
    exact ⟨by decide, _, rfl, fun _ => rfl, by simpa using h.kind, h.value, h.children⟩
  · cases json <;> simp only [Schema.isOneOf, Bool.false_eq_true] at hfield
    obtain ⟨kind, hkind⟩ := @Decode.exists_variantOf _ EntityKind.variants _
      (List.contains_iff_mem.1 hfield)
    exact ⟨by decide, { draft with kind := some kind },
      by rw [Draft.set, Decode.variant, hkind]; rfl, by simpa using h.name, fun _ => rfl, h.value,
      h.children⟩
  · have hcons := h.cons "type" (by decide) (by decide)
    cases json <;> simp [Schema.isText] at hfield
    exact ⟨by decide, _, rfl, hcons.name, hcons.kind, h.value, h.children⟩
  · have hcons := h.cons "value" (by decide) (by decide)
    have hvalue : Decode.optional .ok json = .ok (some json) :=
      Decode.optional_of_ne_null (by rintro rfl; simp [Schema.isExpression] at hfield) rfl
    refine ⟨by decide, { draft with value := some json }, by rw [Draft.set, hvalue]; rfl,
      hcons.name, hcons.kind, ?_, h.children⟩
    rintro _ ⟨⟩
    exact hfield
  · have hcons := h.cons "resource" (by decide) (by decide)
    cases json <;> simp [Schema.isResource] at hfield
    exact ⟨by decide, _, rfl, hcons.name, hcons.kind, h.value, h.children⟩
  · have hcons := h.cons "scope" (by decide) (by decide)
    obtain ⟨texts, htexts⟩ := Decode.exists_list_string hfield
    exact ⟨by decide, { draft with scope := texts }, by rw [Draft.set, htexts]; rfl, hcons.name,
      hcons.kind, h.value, h.children⟩
  · have hcons := h.cons "pragmas" (by decide) (by decide)
    obtain ⟨texts, htexts⟩ := Decode.exists_list_string hfield
    exact ⟨by decide, { draft with pragmas := texts.map Pragma.ofName },
      by rw [Draft.set, htexts]; rfl, hcons.name, hcons.kind, h.value, h.children⟩
  · simp at hfield

/-- The fields that the schema requires are all that a declaration needs. -/
theorem Draft.Fits.finish {read : List String} {draft : Draft} (h : draft.Fits read)
    (hname : "name" ∈ read) (hkind : "kind" ∈ read) :
    ∃ declaration, draft.finish = .ok declaration ∧ declaration.HasExpressions := by
  obtain ⟨name, hname⟩ := Option.isSome_iff_exists.1 (h.name hname)
  obtain ⟨kind, hkind⟩ := Option.isSome_iff_exists.1 (h.kind hkind)
  refine ⟨_, by rw [Draft.finish, hname, hkind]; rfl, ?_⟩
  intro separator parent declared hdeclared
  rw [listing, List.mem_cons, mem_listingAll] at hdeclared
  rcases hdeclared with rfl | ⟨child, hchild, hbelow⟩
  · exact h.value
  · exact h.children child hchild separator _ declared hbelow

mutual

/-- What the schema takes for an entity is read as a declaration, unless something is repeated. -/
theorem exists_of_isEntity : ∀ {json : Json}, Schema.isEntity json = true → json.merged = json →
    ∃ declaration, ofJson json = .ok declaration ∧ declaration.HasExpressions
  | .object members, h, hmerged => by
      simp only [Schema.isEntity, Bool.and_eq_true] at h
      obtain ⟨⟨⟨hname, hkind⟩, hfields⟩, -⟩ := h
      obtain ⟨hnodup, hmembers⟩ := Json.merged_object_iff.1 hmerged
      obtain ⟨last, hlast, hfits⟩ := Decode.Layout.exists_readMembers (P := Draft.Fits)
        (exists_read_of_areEntityFields hfields hmembers) hnodup (by simp) Draft.fits_blank
      obtain ⟨declaration, hfinish, hvalues⟩ := hfits.finish
        (by simpa using Fields.contains_iff_mem_keys.1 hname)
        (by simpa using Fields.contains_iff_mem_keys.1 hkind)
      refine ⟨declaration, ?_, hvalues⟩
      rw [ofJson, readMembers_eq, hlast]
      exact hfinish
  | .null, h, _ | .bool _, h, _ | .number _, h, _ | .string _, h, _ | .array _, h, _ => by
      simp [Schema.isEntity] at h

theorem exists_read_of_areEntityFields : ∀ {members : List (String × Json)},
    Schema.areEntityFields members = true → (∀ member ∈ members, member.2.merged = member.2) →
    ∀ member ∈ members, ∀ {read draft}, Draft.Fits read draft → member.1 ∈ layout.names ∧
      ∃ next, draft.read member.1 member.2 = .ok next ∧ next.Fits (member.1 :: read)
  | [], _, _ => by simp
  | (field, json) :: rest, h, hmerged => by
      simp only [Schema.areEntityFields, Bool.and_eq_true] at h
      rw [List.forall_mem_cons] at hmerged
      refine List.forall_mem_cons.2 ⟨fun {read draft} hfits => ?_,
        exists_read_of_areEntityFields h.2 hmerged.2⟩
      by_cases hfield : field = "entities"
      · obtain ⟨children, hchildren, hall⟩ :=
          exists_of_isEntityList (by simpa [hfield] using h.1) hmerged.1
        have hcons := hfits.cons "entities" (by decide) (by decide)
        subst hfield
        exact ⟨by simp [layout, Decode.Layout.names], { draft with children := children },
          by rw [Draft.read, if_pos rfl, hchildren]; rfl, hcons.name, hcons.kind, hfits.value, hall⟩
      · rw [Draft.read, if_neg hfield]
        exact hfits.set (by simpa [hfield] using h.1)

theorem exists_of_isEntityList : ∀ {json : Json}, Schema.isEntityList json = true →
    json.merged = json → ∃ declarations, childrenOfJson json = .ok declarations ∧
      ∀ declaration ∈ declarations, declaration.HasExpressions
  | .array items, h, hmerged => by
      rw [Schema.isEntityList] at h
      exact exists_of_areEntities h (Json.merged_array_iff.1 hmerged)
  | .null, h, _ | .bool _, h, _ | .number _, h, _ | .string _, h, _ | .object _, h, _ => by
      simp [Schema.isEntityList] at h

theorem exists_of_areEntities : ∀ {items : List Json}, Schema.areEntities items = true →
    (∀ item ∈ items, item.merged = item) → ∃ declarations, ofJsonAll items = .ok declarations ∧
      ∀ declaration ∈ declarations, declaration.HasExpressions
  | [], _, _ => ⟨[], rfl, by simp⟩
  | item :: rest, h, hmerged => by
      simp only [Schema.areEntities, Bool.and_eq_true] at h
      rw [List.forall_mem_cons] at hmerged
      obtain ⟨declaration, hitem, hvalues⟩ := exists_of_isEntity h.1 hmerged.1
      obtain ⟨declarations, hrest, hall⟩ := exists_of_areEntities h.2 hmerged.2
      exact ⟨declaration :: declarations, by rw [ofJsonAll, hitem, hrest]; rfl,
        List.forall_mem_cons.2 ⟨hvalues, hall⟩⟩

end

end EntityDeclaration

/-! ## Documents -/

namespace ModuleDocument

/-- What is known of a draft once some fields have been read. -/
structure Draft.Fits (read : List String) (draft : Draft) : Prop where
  name : "module" ∈ read → draft.name.isSome = true
  entities : ∀ declaration ∈ draft.entities, declaration.HasExpressions

theorem Draft.Fits.set {read : List String} {draft : Draft} (h : draft.Fits read)
    {member : String × Json} (hfield : Schema.isDocumentField member = true)
    (hmerged : member.2.merged = member.2) : member.1 ∈ layout.names ∧
      ∃ next, draft.set member.1 member.2 = .ok next ∧ next.Fits (member.1 :: read) := by
  unfold Schema.isDocumentField at hfield
  split at hfield
  · rename_i json
    cases json <;> simp [Schema.isNonemptyText] at hfield
    exact ⟨by simp [layout, Decode.Layout.names], _, rfl, fun _ => rfl, h.entities⟩
  · obtain ⟨declarations, hread, hall⟩ :=
      EntityDeclaration.exists_of_isEntityList hfield hmerged
    exact ⟨by simp [layout, Decode.Layout.names], { draft with entities := declarations },
      by rw [Draft.set, hread]; rfl, by simpa using h.name, hall⟩
  · simp at hfield

/-- What the schema takes for a document is read as one, unless something is repeated, and all
values in it are expressions. -/
theorem exists_of_isDocument {json : Json} (h : Schema.isDocument json = true)
    (hmerged : json.merged = json) : ∃ document, ofJson json = .ok document ∧
      ∀ config, ∀ declared ∈ document.listing config, ∀ value, declared.2.value = some value →
        Schema.isExpression value = true := by
  cases json <;> simp only [Schema.isDocument, Bool.false_eq_true, Bool.and_eq_true,
    List.all_eq_true] at h
  rename_i members
  obtain ⟨hmodule, hfields⟩ := h
  obtain ⟨hnodup, hmembers⟩ := Json.merged_object_iff.1 hmerged
  have hset : ∀ member ∈ members, ∀ {read draft}, Draft.Fits read draft →
      member.1 ∈ layout.names ∧ ∃ next, Draft.set member.1 member.2 draft = .ok next ∧
        next.Fits (member.1 :: read) := fun member hmember _ _ hfits =>
    hfits.set (hfields member hmember) (hmembers member hmember)
  have hblank : Draft.Fits [] {} := ⟨by simp, by simp⟩
  obtain ⟨last, hlast, hfits⟩ := Decode.Layout.exists_readMembers (P := Draft.Fits) hset hnodup
    (by simp) hblank
  obtain ⟨name, hname⟩ := Option.isSome_iff_exists.1
    (hfits.name (by simpa using Fields.contains_iff_mem_keys.1 hmodule))
  refine ⟨{ name := name, entities := last.entities }, ?_, ?_⟩
  · rw [ofJson, Decode.Layout.read, hlast]
    simp only [bind, Except.bind, hname]
    rfl
  · intro config declared hdeclared
    obtain ⟨declaration, hdeclaration, hbelow⟩ := EntityDeclaration.mem_listingAll.1 hdeclared
    exact hfits.entities declaration hdeclaration _ _ declared hbelow

end ModuleDocument

end StackLinker
