import StackLinker.Proofs.Document.WireForm

/-!
# Documents keep their wire form

A document that was read is read again from what is written of it, and nothing is lost on the way
(`ModuleDocument.ofJson_toJson_of_ofJson`).

Not every declaration is one that can be read.  A declaration may say null where nothing is said at
all, or carry a pragma under the name of another one; both are written, and read as something else.
`EntityDeclaration.IsCanonical` excludes just these, at every depth.  The reader gives nothing but
canonical declarations (`isCanonical_of_ofJson`), and they are the ones that are read back
(`isCanonical_iff`).
-/

namespace StackLinker

theorem EntityKind.variant_name (kind : EntityKind) :
    Decode.variant EntityKind.variants (.string kind.name) = .ok kind := by
  cases kind <;> rfl

namespace EntityDeclaration

variable {P : Json → Prop} {declaration : EntityDeclaration} {json : Json}

/-- Whether a declaration and all below it say everything as it is read: a tree is absent or it is
not null, and pragmas are those of their names.  The trees also satisfy a condition. -/
inductive IsCanonical (P : Json → Prop) : EntityDeclaration → Prop
  | intro {declaration : EntityDeclaration}
      (value : ∀ json, declaration.value = some json → json ≠ .null ∧ P json)
      (resource : ∀ json, declaration.resource = some json → json ≠ .null ∧ P json)
      (pragmas : ∀ pragma ∈ declaration.pragmas, Pragma.ofName pragma.name = pragma)
      (children : ∀ child ∈ declaration.children, child.IsCanonical P) :
      IsCanonical P declaration

/-! ## Writing -/

/-- The members that are written. -/
def members (declaration : EntityDeclaration) : List (String × Json) :=
  [("name", .string declaration.name), ("kind", .string declaration.kind.name)] ++
  (declaration.typeName.toList.map fun t => ("type", .string t)) ++
  (declaration.value.toList.map fun v => ("value", v)) ++
  (declaration.resource.toList.map fun r => ("resource", r)) ++
  (if declaration.scope.isEmpty then [] else [("scope", .texts declaration.scope)]) ++
  (if declaration.pragmas.isEmpty then []
    else [("pragmas", .texts (declaration.pragmas.map Pragma.name))]) ++
  (if declaration.children.isEmpty then []
    else [("entities", .array (toJsonAll declaration.children))])

theorem toJson_eq (declaration : EntityDeclaration) :
    declaration.toJson = .object declaration.members := by
  cases declaration
  rw [toJson]
  rfl

theorem toJsonAll_eq_map (declarations : List EntityDeclaration) :
    toJsonAll declarations = declarations.map toJson := by
  induction declarations with
  | nil => rfl
  | cons declaration rest ih => rw [toJsonAll, ih, List.map_cons]

/-- The written fields are among the known ones, in their order. -/
theorem keys_members (declaration : EntityDeclaration) :
    (Fields.keys declaration.members).Sublist layout.names := by
  have hnames : layout.names = ["name", "kind"] ++ ["type"] ++ ["value"] ++ ["resource"] ++
      ["scope"] ++ ["pragmas"] ++ ["entities"] := rfl
  rw [members, hnames]
  simp only [Fields.keys, List.map_append]
  exact ((((((List.Sublist.refl _).append (Decode.keys_optional_sublist ..)).append
    (Decode.keys_optional_sublist ..)).append (Decode.keys_optional_sublist ..)).append
    (Decode.keys_unless_sublist ..)).append (Decode.keys_unless_sublist ..)).append
    (Decode.keys_unless_sublist ..)

/-! ## Reading what was written -/

/-- Reads one written field. -/
def Draft.readMember (draft : Draft) (member : String × Json) : Decode.Result Draft :=
  Draft.read member.1 member.2 draft

theorem ofJsonAll_toJsonAll {declarations : List EntityDeclaration}
    (h : ∀ declaration ∈ declarations, ofJson declaration.toJson = .ok declaration) :
    ofJsonAll (toJsonAll declarations) = .ok declarations := by
  induction declarations with
  | nil => rfl
  | cons declaration rest ih =>
      rw [List.forall_mem_cons] at h
      rw [toJsonAll, ofJsonAll, h.1, ih h.2]
      rfl

theorem read_kind (kind : EntityKind) (draft : Draft) :
    Draft.read "kind" (.string kind.name) draft = .ok { draft with kind := some kind } := by
  rw [Draft.read, if_neg (by decide), Draft.set, EntityKind.variant_name]
  rfl

theorem read_value {json : Json} (hnull : json ≠ .null) (draft : Draft) :
    Draft.read "value" json draft = .ok { draft with value := some json } := by
  rw [Draft.read, if_neg (by decide), Draft.set, Decode.optional_of_ne_null hnull rfl]
  rfl

theorem read_resource {json : Json} (hnull : json ≠ .null) (draft : Draft) :
    Draft.read "resource" json draft = .ok { draft with resource := some json } := by
  rw [Draft.read, if_neg (by decide), Draft.set, Decode.optional_of_ne_null hnull rfl]
  rfl

theorem read_scope (scope : List String) (draft : Draft) :
    Draft.read "scope" (.texts scope) draft = .ok { draft with scope := scope } := by
  rw [Draft.read, if_neg (by decide), Draft.set, Json.texts, Decode.list, Decode.each_string]
  rfl

theorem read_pragmas {pragmas : List Pragma}
    (h : ∀ pragma ∈ pragmas, Pragma.ofName pragma.name = pragma) (draft : Draft) :
    Draft.read "pragmas" (.texts (pragmas.map Pragma.name)) draft =
      .ok { draft with pragmas := pragmas } := by
  have hnames : (pragmas.map Pragma.name).map Pragma.ofName = pragmas := by
    rw [List.map_map]
    exact (List.map_congr_left h).trans (List.map_id _)
  rw [Draft.read, if_neg (by decide), Draft.set, Json.texts, Decode.list, Decode.each_string]
  simp only [Except.map, hnames]

theorem read_children {declarations : List EntityDeclaration}
    (h : ∀ declaration ∈ declarations, ofJson declaration.toJson = .ok declaration)
    (draft : Draft) : Draft.read "entities" (.array (toJsonAll declarations)) draft =
      .ok { draft with children := declarations } := by
  rw [Draft.read, if_pos rfl, childrenOfJson, ofJsonAll_toJsonAll h]
  rfl

/-- The draft that the written fields leave behind. -/
theorem read_members (declaration : EntityDeclaration)
    (hvalue : ∀ json, declaration.value = some json → json ≠ .null)
    (hresource : ∀ json, declaration.resource = some json → json ≠ .null)
    (hpragmas : ∀ pragma ∈ declaration.pragmas, Pragma.ofName pragma.name = pragma)
    (hchildren : ∀ child ∈ declaration.children, ofJson child.toJson = .ok child) :
    declaration.members.foldlM Draft.readMember {} = .ok {
      name := some declaration.name
      kind := some declaration.kind
      typeName := declaration.typeName
      value := declaration.value
      resource := declaration.resource
      scope := declaration.scope
      pragmas := declaration.pragmas
      children := declaration.children } := by
  obtain ⟨name, kind, typeName, value, resource, scope, pragmas, children⟩ := declaration
  have hhead : [("name", Json.string name), ("kind", Json.string kind.name)].foldlM
      Draft.readMember {} = .ok { name := some name, kind := some kind } :=
    Decode.foldlM_single (read_kind kind { name := some name })
  have htype (draft : Draft) (hdraft : draft.typeName = none) :
      (typeName.toList.map fun t => ("type", Json.string t)).foldlM Draft.readMember draft =
        .ok { draft with typeName := typeName } :=
    Decode.foldlM_optional (by rintro rfl; rw [← hdraft]) (by rintro _ rfl; rfl)
  have hvalue (draft : Draft) (hdraft : draft.value = none) :
      (value.toList.map fun v => ("value", v)).foldlM Draft.readMember draft =
        .ok { draft with value := value } :=
    Decode.foldlM_optional (by rintro rfl; rw [← hdraft])
      (by rintro v rfl; exact read_value (hvalue v rfl) _)
  have hresource (draft : Draft) (hdraft : draft.resource = none) :
      (resource.toList.map fun r => ("resource", r)).foldlM Draft.readMember draft =
        .ok { draft with resource := resource } :=
    Decode.foldlM_optional (by rintro rfl; rw [← hdraft])
      (by rintro r rfl; exact read_resource (hresource r rfl) _)
  have hscope (draft : Draft) (hdraft : draft.scope = []) :
      (if scope.isEmpty then [] else [("scope", Json.texts scope)]).foldlM Draft.readMember draft =
        .ok { draft with scope := scope } :=
    Decode.foldlM_unless (fun hempty => by rw [List.isEmpty_iff.1 hempty, ← hdraft])
      fun _ => read_scope scope draft
  have hpragmas (draft : Draft) (hdraft : draft.pragmas = []) :
      (if pragmas.isEmpty then [] else [("pragmas", Json.texts (pragmas.map Pragma.name))]).foldlM
        Draft.readMember draft = .ok { draft with pragmas := pragmas } :=
    Decode.foldlM_unless (fun hempty => by rw [List.isEmpty_iff.1 hempty, ← hdraft])
      fun _ => read_pragmas hpragmas draft
  have hchildren (draft : Draft) (hdraft : draft.children = []) :
      (if children.isEmpty then [] else [("entities", Json.array (toJsonAll children))]).foldlM
        Draft.readMember draft = .ok { draft with children := children } :=
    Decode.foldlM_unless (fun hempty => by rw [List.isEmpty_iff.1 hempty, ← hdraft])
      fun _ => read_children hchildren draft
  simp only [members, List.append_assoc]
  exact (Decode.foldlM_then hhead).trans <|
    (Decode.foldlM_then (htype _ rfl)).trans <|
    (Decode.foldlM_then (hvalue _ rfl)).trans <|
    (Decode.foldlM_then (hresource _ rfl)).trans <|
    (Decode.foldlM_then (hscope _ rfl)).trans <|
    (Decode.foldlM_then (hpragmas _ rfl)).trans <|
    hchildren _ rfl

/-- A canonical declaration is read back from its wire form. -/
theorem ofJson_toJson (h : declaration.IsCanonical P) :
    ofJson declaration.toJson = .ok declaration := by
  induction h with
  | @intro declaration value resource pragmas children ih =>
      have hfold := read_members declaration (fun json hjson => (value json hjson).1)
        (fun json hjson => (resource json hjson).1) pragmas ih
      rw [toJson_eq, ofJson, readMembers_eq, Decode.Layout.readMembers_eq_foldlM
        (keys_members _).subset ((keys_members _).nodup (by decide)) (by simp)]
      change (declaration.members.foldlM Draft.readMember {} >>= Draft.finish) = .ok declaration
      rw [hfold]
      cases declaration
      rfl

/-- Nothing is repeated in the wire form of a declaration if nothing is repeated in its trees. -/
theorem merged_toJson (h : declaration.IsCanonical fun json => json.merged = json) :
    declaration.toJson.merged = declaration.toJson := by
  induction h with
  | @intro declaration value resource pragmas children ih =>
      rw [toJson_eq]
      refine Json.merged_object_iff.2
        ⟨(keys_members _).nodup (by decide), fun member hmember => ?_⟩
      simp only [members, List.mem_append, List.mem_map, Option.mem_toList] at hmember
      rcases hmember with (((((hhead | ⟨_, -, rfl⟩) | ⟨v, hv, rfl⟩) | ⟨r, hr, rfl⟩) | hscope) |
        hpragmas) | hchildren
      · rcases List.mem_pair.1 hhead with rfl | rfl <;> rfl
      · rfl
      · exact (value v hv).2
      · exact (resource r hr).2
      · obtain rfl := List.mem_singleton.1 (List.mem_ite_nil_left.1 hscope).2
        exact Json.merged_texts _
      · obtain rfl := List.mem_singleton.1 (List.mem_ite_nil_left.1 hpragmas).2
        exact Json.merged_texts _
      · obtain rfl := List.mem_singleton.1 (List.mem_ite_nil_left.1 hchildren).2
        refine Json.merged_array_iff.2 fun item hitem => ?_
        rw [toJsonAll_eq_map] at hitem
        obtain ⟨child, hchild, rfl⟩ := List.mem_map.1 hitem
        exact ih child hchild

/-! ## What is read -/

theorem readItems_eq (index : Nat) (fields : List (String × Bool)) (items : List Json)
    (draft : Draft) :
    readItems index fields items draft = layout.readItems Draft.read index fields items draft := by
  induction items generalizing index fields draft with
  | nil => rw [readItems, Decode.Layout.readItems]
  | cons json rest ih =>
      cases fields with
      | nil => simp [readItems, Decode.Layout.readItems]
      | cons field fields =>
          by_cases hfield : field.1 = "entities" <;>
            simp [readItems, Decode.Layout.readItems, Draft.read, hfield, ih]

/-- Declarations are read like other records, in either spelling. -/
theorem ofJson_eq_read (json : Json) :
    ofJson json = layout.read Draft.read {} json >>= Draft.finish := by
  cases json with
  | object members => rw [ofJson, readMembers_eq]; rfl
  | array items => rw [ofJson, readItems_eq]; rfl
  | _ => rfl

/-- The children are read from the parts of their list. -/
theorem exists_part_of_childrenOfJson {declarations : List EntityDeclaration}
    (h : childrenOfJson json = .ok declarations) :
    ∀ declaration ∈ declarations, ∃ part ∈ json.parts, ofJson part = .ok declaration := by
  cases json with
  | array items =>
      rw [childrenOfJson] at h
      rw [Json.parts]
      induction items generalizing declarations with
      | nil => simp [← Except.ok.inj h]
      | cons item rest ih =>
          obtain ⟨first, hfirst, h⟩ := Decode.exists_of_bind_eq_ok h
          obtain ⟨others, hothers, h⟩ := Decode.exists_of_bind_eq_ok h
          obtain rfl := Except.ok.inj h
          refine List.forall_mem_cons.2 ⟨⟨item, List.mem_cons_self, hfirst⟩, fun other hother => ?_⟩
          obtain ⟨part, hpart, hread⟩ := ih hothers other hother
          exact ⟨part, List.mem_cons_of_mem _ hpart, hread⟩
  | _ => simp [childrenOfJson] at h

/-- What is known of a draft once some fields have been read. -/
structure Draft.IsCanonical (P : Json → Prop) (draft : Draft) : Prop where
  value : ∀ json, draft.value = some json → json ≠ .null ∧ P json
  resource : ∀ json, draft.resource = some json → json ≠ .null ∧ P json
  pragmas : ∀ pragma ∈ draft.pragmas, Pragma.ofName pragma.name = pragma
  children : ∀ child ∈ draft.children, child.IsCanonical P

/-- Reading one field keeps a draft canonical, if its tree meets the condition and the children in
it are canonical. -/
theorem Draft.IsCanonical.read {draft next : Draft} {field : String} (h : draft.IsCanonical P)
    (hjson : P json)
    (hchildren : ∀ declarations, childrenOfJson json = .ok declarations →
      ∀ child ∈ declarations, child.IsCanonical P)
    (hread : Draft.read field json draft = .ok next) : next.IsCanonical P := by
  rw [Draft.read] at hread
  split at hread
  · obtain ⟨declarations, hdeclarations, rfl⟩ := Decode.exists_of_map_eq_ok hread
    exact ⟨h.value, h.resource, h.pragmas, hchildren declarations hdeclarations⟩
  unfold Draft.set at hread
  split at hread
  case h_4 =>
    obtain ⟨read, hvalue, rfl⟩ := Decode.exists_of_map_eq_ok hread
    refine ⟨?_, h.resource, h.pragmas, h.children⟩
    rintro part rfl
    obtain ⟨rfl, hnull⟩ := Decode.optional_ok_eq_some hvalue
    exact ⟨hnull, hjson⟩
  case h_5 =>
    obtain ⟨read, hresource, rfl⟩ := Decode.exists_of_map_eq_ok hread
    refine ⟨h.value, ?_, h.pragmas, h.children⟩
    rintro part rfl
    obtain ⟨rfl, hnull⟩ := Decode.optional_ok_eq_some hresource
    exact ⟨hnull, hjson⟩
  case h_7 =>
    obtain ⟨names, -, rfl⟩ := Decode.exists_of_map_eq_ok hread
    refine ⟨h.value, h.resource, fun pragma hpragma => ?_, h.children⟩
    obtain ⟨name, -, rfl⟩ := List.mem_map.1 hpragma
    rw [Pragma.name_ofName]
  case h_8 => exact Except.ok.inj hread ▸ h
  -- The other fields say nothing that could fail to be canonical.
  all_goals
    obtain ⟨_, -, rfl⟩ := Decode.exists_of_map_eq_ok hread
    exact ⟨h.value, h.resource, h.pragmas, h.children⟩

/-- What is read is canonical, and its trees satisfy what the parts of a tree inherit. -/
theorem isCanonical_of_ofJson (hparts : ∀ json, P json → ∀ part ∈ json.parts, P part)
    (json : Json) (hjson : P json) (declaration : EntityDeclaration)
    (h : ofJson json = .ok declaration) : declaration.IsCanonical P := by
  rw [ofJson_eq_read] at h
  obtain ⟨draft, hdraft, h⟩ := Decode.exists_of_bind_eq_ok h
  have hcanonical : draft.IsCanonical P := by
    refine Decode.Layout.read_preserves (P := Draft.IsCanonical P)
      (fun part hpart _ _ _ hbefore hread => ?_) ⟨by simp, by simp, by simp, by simp⟩ hdraft
    refine hbefore.read (hparts json hjson part hpart) (fun declarations hread child hchild => ?_)
      hread
    obtain ⟨below, hbelow, hread⟩ := exists_part_of_childrenOfJson hread child hchild
    -- A child stands two levels further down.
    have hpartless := Json.sizeOf_lt_of_mem_parts hpart
    have hbelowless := Json.sizeOf_lt_of_mem_parts hbelow
    exact isCanonical_of_ofJson hparts below
      (hparts part (hparts json hjson part hpart) below hbelow) child hread
  obtain ⟨name, -, h⟩ := Decode.exists_of_bind_eq_ok h
  obtain ⟨kind, -, h⟩ := Decode.exists_of_bind_eq_ok h
  obtain rfl := Except.ok.inj h
  exact ⟨hcanonical.value, hcanonical.resource, hcanonical.pragmas, hcanonical.children⟩
termination_by sizeOf json

/-- The canonical declarations are those that survive being written and read. -/
theorem isCanonical_iff :
    declaration.IsCanonical (fun _ => True) ↔ ofJson declaration.toJson = .ok declaration :=
  ⟨ofJson_toJson, isCanonical_of_ofJson (fun _ _ _ _ => trivial) _ trivial _⟩

end EntityDeclaration

/-! ## Documents -/

namespace ModuleDocument

variable {json : Json} {document : ModuleDocument} {P : Json → Prop}

/-- All declarations of a document that was read are canonical. -/
theorem isCanonical_of_ofJson (hparts : ∀ json, P json → ∀ part ∈ json.parts, P part)
    (hjson : P json) (h : ofJson json = .ok document) :
    ∀ declaration ∈ document.entities, declaration.IsCanonical P := by
  obtain ⟨draft, hdraft, h⟩ := Decode.exists_of_bind_eq_ok h
  obtain ⟨name, -, h⟩ := Decode.exists_of_bind_eq_ok h
  obtain rfl := Except.ok.inj h
  refine Decode.Layout.read_preserves
    (P := fun draft => ∀ declaration ∈ draft.entities, declaration.IsCanonical P)
    (fun part hpart field before after hbefore hset => ?_) (by simp) hdraft
  unfold Draft.set at hset
  split at hset
  case h_2 =>
    obtain ⟨declarations, hdeclarations, rfl⟩ := Decode.exists_of_map_eq_ok hset
    intro declaration hdeclaration
    obtain ⟨below, hbelow, hread⟩ :=
      EntityDeclaration.exists_part_of_childrenOfJson hdeclarations declaration hdeclaration
    exact EntityDeclaration.isCanonical_of_ofJson hparts below
      (hparts part (hparts json hjson part hpart) below hbelow) declaration hread
  case h_1 =>
    obtain ⟨_, -, rfl⟩ := Decode.exists_of_map_eq_ok hset
    exact hbefore
  case h_3 => exact Except.ok.inj hset ▸ hbefore

/-- A document of canonical declarations is read back from its wire form. -/
theorem ofJson_toJson (h : ∀ declaration ∈ document.entities, declaration.IsCanonical P) :
    ofJson document.toJson = .ok document := by
  have hchildren := EntityDeclaration.ofJsonAll_toJsonAll fun declaration hdeclaration =>
    EntityDeclaration.ofJson_toJson (h declaration hdeclaration)
  have hentities (draft : Draft) :
      Draft.set "entities" (.array (EntityDeclaration.toJsonAll document.entities)) draft =
        .ok { draft with entities := document.entities } := by
    rw [Draft.set, EntityDeclaration.childrenOfJson, hchildren]
    rfl
  have hmembers : layout.read Draft.set {} document.toJson =
      .ok { name := some document.name, entities := document.entities } := by
    rw [toJson, Decode.Layout.read, Decode.Layout.readMembers_eq_foldlM (List.Subset.refl _)
      (by simp [Fields.keys]) (by simp)]
    exact congrArg (Except.bind · .ok) (hentities { name := some document.name })
  rw [ofJson, hmembers]
  rfl

theorem merged_toJson (h : ∀ declaration ∈ document.entities,
    declaration.IsCanonical fun json => json.merged = json) :
    document.toJson.merged = document.toJson := by
  refine Json.merged_object_iff.2 ⟨by simp [Fields.keys], fun member hmember => ?_⟩
  rcases List.mem_pair.1 hmember with rfl | rfl
  · rfl
  · refine Json.merged_array_iff.2 fun item hitem => ?_
    rw [EntityDeclaration.toJsonAll_eq_map] at hitem
    obtain ⟨declaration, hdeclaration, rfl⟩ := List.mem_map.1 hitem
    exact EntityDeclaration.merged_toJson (h declaration hdeclaration)

/-- A document that was read is read again from its wire form, is written in the same way again, and
declares the same graph.  Nothing is repeated in the wire form unless something is repeated in what
was read first. -/
theorem ofJson_toJson_of_ofJson (h : ofJson json = .ok document) :
    ∃ read, ofJson document.toJson = .ok read ∧ read = document ∧
      read.toJson = document.toJson ∧
      (∀ config, ModuleGraph.ofDocument config read = ModuleGraph.ofDocument config document) ∧
      (json.merged = json → document.toJson.merged = document.toJson) := by
  have hcanonical := isCanonical_of_ofJson (P := fun _ => True) (fun _ _ _ _ => trivial) trivial h
  refine ⟨document, ofJson_toJson hcanonical, rfl, rfl, fun _ => rfl, fun hmerged => ?_⟩
  exact merged_toJson <| isCanonical_of_ofJson (P := fun json => json.merged = json)
    (fun _ hmerged _ hpart => Json.merged_of_mem_parts hmerged hpart) hmerged h

/-- A module in which an entity is spelled as an array, fields are null, in an odd order or empty,
and a kind is spelled as an object. -/
def spelledModule : Json :=
  .object [("entities", .array [
    .array [.string "Queue", .string "Resource", .null, .null,
      .object [("Type", .string "Queue"), ("Properties", .null)]],
    .object [("kind", .object [("Value", .null)]), ("value", .array [.null]),
      ("pragmas", .array [.string "no-type-validation", .string "later"]), ("scope", .array []),
      ("entities", .array [.array [.string "Inner", .string "Value", .null, .bool true]]),
      ("name", .string "Outer"), ("resource", .null)]]), ("module", .string "Main")]

/-- The document of the module. -/
def mixed : ModuleDocument where
  name := "Main"
  entities := [
    { name := "Queue", kind := .resource,
      resource := some (.object [("Type", .string "Queue"), ("Properties", .null)]) },
    { name := "Outer", kind := .value, value := some (.array [.null]),
      pragmas := [.noTypeValidation, .other "later"],
      children := [{ name := "Inner", kind := .value, value := some (.bool true) }] }]

theorem ofJson_toJson_of_ofJson_mixed : ofJson spelledModule = .ok mixed ∧
    ∃ read, ofJson mixed.toJson = .ok read ∧ read = mixed ∧ read.toJson = mixed.toJson ∧
      (∀ config, ModuleGraph.ofDocument config read = ModuleGraph.ofDocument config mixed) ∧
      (spelledModule.merged = spelledModule → mixed.toJson.merged = mixed.toJson) := by
  have hread : ofJson spelledModule = .ok mixed := rfl
  exact ⟨hread, ofJson_toJson_of_ofJson hread⟩

end ModuleDocument

end StackLinker
