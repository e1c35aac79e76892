import StackLinker.Fields
import StackLinker.Number

/-!
# JSON trees

The wire form of documents, templates and answers.  Members of an object keep their order; an
object as it was written may repeat a key, and `Json.merged` settles repetitions: a key keeps its
first place and its last value.
-/

namespace StackLinker

/-- A JSON tree whose objects are ordered. -/
inductive Json where
  | null
  | bool (b : Bool)
  | number (n : Number)
  | string (s : String)
  | array (items : List Json)
  | object (members : List (String × Json))
deriving Repr, Inhabited

namespace Json

/-- An integer. -/
def int (i : Int) : Json := .number (.int i)

/-- A natural number. -/
def nat (n : Nat) : Json := .int n

/-- A list of texts. -/
def texts (items : List String) : Json := .array (items.map .string)

/-- A text, or null for none. -/
def textOrNull : Option String → Json
  | some s => .string s
  | none => .null

/-- The value of a member of an object. -/
def member? (key : String) : Json → Option Json
  | .object members => Fields.find? key members
  | _ => none

/-! ## Decidable equality -/

mutual

/-- Equality as a test. -/
def decEq : Json → Json → Bool
  | .null, .null => true
  | .bool a, .bool b => a == b
  | .number a, .number b => decide (a = b)
  | .string a, .string b => a == b
  | .array a, .array b => decEqItems a b
  | .object a, .object b => decEqMembers a b
  | _, _ => false

/-- Equality of lists of trees as a test. -/
def decEqItems : List Json → List Json → Bool
  | [], [] => true
  | x :: xs, y :: ys => decEq x y && decEqItems xs ys
  | _, _ => false

/-- Equality of members, order included, as a test. -/
def decEqMembers : List (String × Json) → List (String × Json) → Bool
  | [], [] => true
  | (k, x) :: xs, (l, y) :: ys => k == l && decEq x y && decEqMembers xs ys
  | _, _ => false

end

mutual

theorem decEq_iff : ∀ a b : Json, decEq a b = true ↔ a = b
  | .null, b => by cases b <;> simp [decEq]
  | .bool _, b => by cases b <;> simp [decEq]
  | .number _, b => by cases b <;> simp [decEq]
  | .string _, b => by cases b <;> simp [decEq]
  | .array xs, b => by cases b <;> simp [decEq, decEqItems_iff xs]
  | .object ms, b => by cases b <;> simp [decEq, decEqMembers_iff ms]

theorem decEqItems_iff : ∀ a b : List Json, decEqItems a b = true ↔ a = b
  | [], b => by cases b <;> simp [decEqItems]
  | x :: xs, b => by cases b <;> simp [decEqItems, decEq_iff x, decEqItems_iff xs]

theorem decEqMembers_iff : ∀ a b : List (String × Json), decEqMembers a b = true ↔ a = b
  | [], b => by cases b <;> simp [decEqMembers]
  | (k, x) :: ms, b => by
    cases b with
    | nil => simp [decEqMembers]
    | cons m rest => simp [decEqMembers, decEq_iff x, decEqMembers_iff ms, Prod.ext_iff]

end

instance : DecidableEq Json := fun a b => decidable_of_iff _ (decEq_iff a b)

/-! ## Equality of values -/

mutual

/-- Equality of the values that two trees stand for: the order of members does not matter, and
numbers are compared by value. -/
def sameValue : Json → Json → Bool
  | .null, .null => true
  | .bool a, .bool b => a == b
  | .number a, .number b => a.sameValue b
  | .string a, .string b => a == b
  | .array a, .array b => sameItems a b
  | .object a, .object b => a.length == b.length && sameMembers a b
  | _, _ => false

/-- Equality of lists of values. -/
def sameItems : List Json → List Json → Bool
  | [], [] => true
  | x :: xs, y :: ys => sameValue x y && sameItems xs ys
  | _, _ => false

/-- Whether each member of the first object has its counterpart in the second. -/
def sameMembers : List (String × Json) → List (String × Json) → Bool
  | [], _ => true
  | (k, x) :: rest, others =>
    (match Fields.find? k others with
      | some y => sameValue x y
      | none => false) && sameMembers rest others

end

/-! ## Repeated keys -/

mutual

/-- Settles repeated keys at every depth. -/
def merged : Json → Json
  | .array items => .array (mergedItems items)
  | .object members => .object (Fields.ofPairs (mergedMembers members))
  | other => other

/-- Settles repeated keys inside each item. -/
def mergedItems : List Json → List Json
  | [] => []
  | x :: xs => merged x :: mergedItems xs

/-- Settles repeated keys inside each member. -/
def mergedMembers : List (String × Json) → List (String × Json)
  | [] => []
  | (k, x) :: rest => (k, merged x) :: mergedMembers rest

end

end Json

end StackLinker
