import StackLinker.Proofs.Form.WellFormed
import StackLinker.Schema

/-!
# Expressions of the schema

The schema describes symbolic forms independently of their recognition.  A tree that it takes for an
expression stands for a well-formed value, as long as no argument map is itself a form
(`isWellFormed_of_isExpression`): the schema asks of an argument map only that the arguments are
expressions, so that the map may have a reserved key alone.
-/

namespace StackLinker

/-- No argument map in the value is itself a form. -/
def Value.HasPlainArguments (v : Value) : Prop :=
  ∀ pattern arguments, template pattern (some arguments) ∈ v.nodes →
    Fields.isReserved arguments = false

namespace Value

theorem HasPlainArguments.of_mem_children {v : Value} (h : v.HasPlainArguments)
    {child : String × Value} (hchild : child ∈ v.children) : child.2.HasPlainArguments :=
  fun pattern arguments hnode => h pattern arguments (mem_nodes_of_mem_children hchild hnode)

theorem ofJsonItems_eq_map (items : List Json) : ofJsonItems items = items.map ofJson := by
  induction items with
  | nil => rfl
  | cons x xs ih => rw [ofJsonItems, ih, List.map_cons]

theorem ofJsonMembers_eq_map (members : List (String × Json)) :
    ofJsonMembers members = members.map fun member => (member.1, ofJson member.2) := by
  induction members with
  | nil => rfl
  | cons member rest ih => rw [ofJsonMembers, ih, List.map_cons]

end Value

namespace Schema

open Value

theorem areExpressions_iff {items : List Json} :
    areExpressions items = true ↔ ∀ item ∈ items, isExpression item = true := by
  induction items with
  | nil => simp [areExpressions]
  | cons x xs ih => simp [areExpressions, ih]

theorem haveExpressions_iff {members : List (String × Json)} :
    haveExpressions members = true ↔ ∀ member ∈ members, isExpression member.2 = true := by
  induction members with
  | nil => simp [haveExpressions]
  | cons member rest ih => simp [haveExpressions, ih]

/-- The forms of the schema. -/
inductive FormShape : List (String × Json) → Prop
  | reference (key : String) : FormShape [(Form.refKey, .string key)]
  | attributeOf {body : Json} (h : isAttributeBody body = true) :
      FormShape [(Form.getAttKey, body)]
  | pattern (pattern : String) : FormShape [(Form.subKey, .string pattern)]
  | template (pattern : String) {arguments : List (String × Json)}
      (h : haveExpressions arguments = true) :
      FormShape [(Form.subKey, .array [.string pattern, .object arguments])]

theorem formShape_of_isForm {members : List (String × Json)} (h : isForm members = true) :
    FormShape members := by
  unfold isForm at h
  split at h
  · rename_i key body
    split at h
    · rename_i hkey
      subst hkey
      cases body <;> simp [isNonemptyText] at h
      exact .reference _
    · split at h
      · rename_i hkey
        exact hkey ▸ .attributeOf h
      · split at h
        · rename_i hkey
          subst hkey
          unfold isSubstitutionBody at h
          split at h
          · exact .pattern _
          · unfold arePatternAndArguments at h
            split at h
            · exact .template _ h
            · simp at h
          · simp at h
        · simp at h
  · simp at h

/-- An object without reserved keys is ordinary. -/
theorem isReserved_of_isUnreserved {members : List (String × Json)}
    (h : isUnreserved members = true) : Fields.isReserved (ofJsonMembers members) = false := by
  rcases members with _ | ⟨⟨key, json⟩, _ | ⟨_, _⟩⟩
  · rfl
  · simpa [isUnreserved, has, Fields.contains, Fields.find?, Fields.isReserved, ofJsonMembers,
      and_assoc] using h
  · rfl

/-- An attribute reference of the schema is one, and its body has no parts but texts. -/
theorem isWellFormed_of_isAttributeBody {body : Json} (h : isAttributeBody body = true) :
    (Value.map [(Form.getAttKey, ofJson body)]).isWellFormed = true := by
  unfold isAttributeBody at h
  split at h
  · rename_i first second
    cases first <;> simp [isText] at h
    cases second <;> simp at h
    rfl
  · rename_i s
    unfold isDottedName at h
    split at h
    · rename_i name attr hcut
      have hform : Form.recognize? (.map [(Form.getAttKey, .string s)]) =
          .ok (some (.attributeOf (String.ofList name) (String.ofList attr))) := by
        simp [Form.recognize?_getAttKey, Form.ofGetAttBody, Value.string, asString, Text.cutAtDot,
          hcut, Except.map]
      refine isWellFormed_iff_parts.2 ⟨by simp, ⟨_, hform⟩, ?_⟩
      rintro child hchild
      obtain rfl := List.mem_singleton.1 hchild
      rfl
    · simp at h
  · simp at h

private theorem sizeOf_lt_of_mem {members : List (String × Json)} {member : String × Json}
    (h : member ∈ members) : sizeOf member.2 < sizeOf members := by
  have hmember := List.sizeOf_lt_of_mem h
  rw [Prod.mk.sizeOf_spec] at hmember
  omega

/-- An ordinary object of well-formed values is well-formed. -/
private theorem isWellFormed_members {members : List (String × Json)}
    (hordinary : Fields.isReserved (ofJsonMembers members) = false)
    (h : ∀ member ∈ members, (ofJson member.2).isWellFormed = true) :
    (Value.map (ofJsonMembers members)).isWellFormed = true := by
  refine isWellFormed_of_not_isReserved (by simp) hordinary ?_
  rw [children, ofJsonMembers_eq_map]
  exact List.forall_mem_map.2 h

/-- What the schema takes for an expression is well-formed, as long as no argument map is itself a
form. -/
theorem isWellFormed_of_isExpression {json : Json} (h : isExpression json = true)
    (hplain : (ofJson json).HasPlainArguments) : (ofJson json).isWellFormed = true := by
  induction hsize : sizeOf json using Nat.strongRecOn generalizing json with
  | ind size ih =>
      subst hsize
      have hmembers : ∀ members : List (String × Json), sizeOf members < sizeOf json →
          haveExpressions members = true → (Value.map (ofJsonMembers members)).HasPlainArguments →
          ∀ member ∈ members, (ofJson member.2).isWellFormed = true := by
        intro members hless hvalues hplain member hmember
        have hchild : (member.1, ofJson member.2) ∈ ofJsonMembers members := by
          rw [ofJsonMembers_eq_map]
          exact List.mem_map_of_mem hmember
        exact ih _ (Nat.lt_trans (sizeOf_lt_of_mem hmember) hless)
          (haveExpressions_iff.1 hvalues member hmember) (hplain.of_mem_children hchild) rfl
      cases json with
      | null => simp [isExpression] at h
      | bool b => rfl
      | number n => rfl
      | string s => rfl
      | array items =>
          rw [isExpression, areExpressions_iff] at h
          have hitems := forall_children_list.1
            fun (child : String × Value) hchild => hplain.of_mem_children hchild
          rw [ofJsonItems_eq_map, List.forall_mem_map] at hitems
          rw [ofJson, isWellFormed_list_iff, ofJsonItems_eq_map, List.forall_mem_map]
          intro item hitem
          refine ih _ ?_ (h item hitem) (hitems item hitem) rfl
          have hless := List.sizeOf_lt_of_mem hitem
          simp only [Json.array.sizeOf_spec]
          omega
      | object members =>
          simp only [isExpression, Bool.or_eq_true, Bool.and_eq_true] at h
          rcases h with hform | ⟨hunreserved, hvalues⟩
          · cases formShape_of_isForm hform with
            | reference key => rfl
            | attributeOf hbody => exact isWellFormed_of_isAttributeBody hbody
            | pattern pattern => rfl
            | @template pattern arguments hvalues =>
                -- The argument map stands two levels below.
                have hmap : (Value.map (ofJsonMembers arguments)).HasPlainArguments :=
                  (hplain.of_mem_children List.mem_cons_self).of_mem_children
                    (List.mem_cons_of_mem _ List.mem_cons_self)
                have hordinary := hplain pattern (ofJsonMembers arguments) (self_mem_nodes _)
                refine (@isWellFormed_template_iff pattern (some _)).2 ?_
                rintro _ ⟨⟩
                refine isWellFormed_members hordinary (hmembers arguments ?_ hvalues hmap)
                simp only [Json.object.sizeOf_spec, Json.array.sizeOf_spec, List.cons.sizeOf_spec,
                  Prod.mk.sizeOf_spec]
                omega
          · refine isWellFormed_members (isReserved_of_isUnreserved hunreserved)
              (hmembers members ?_ hvalues hplain)
            simp only [Json.object.sizeOf_spec]
            omega

end Schema

end StackLinker
