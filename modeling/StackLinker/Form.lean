import StackLinker.Value.StructuralError

/-!
# Symbolic forms

A map with a single reserved key stands for something else: `Ref` for the value of a name,
`Fn::GetAtt` for an attribute of it, and `Fn::Sub` for a pattern whose placeholders are filled in.
Recognition refuses a reserved key with a body of the wrong shape; every other node is ordinary.
-/

namespace StackLinker

/-- A symbolic form. -/
inductive Form where
  | reference (key : String)
  | attributeOf (key attr : String)
  | substitution (pattern : String) (arguments : Option (Fields Value))
deriving DecidableEq

namespace Form

/-- The key of a reference. -/
def refKey : String := "Ref"

/-- The key of an attribute reference. -/
def getAttKey : String := "Fn::GetAtt"

/-- The key of a substitution. -/
def subKey : String := "Fn::Sub"

/-- The form in the body of a reference. -/
def ofRefBody (body : Value) : Except Malformation Form :=
  match body.asString with
  | some key => .ok (.reference key)
  | none => .error (.referenceTarget body.shape)

/-- The form in the body of an attribute reference: two strings, or a dotted name. -/
def ofGetAttBody (body : Value) : Except Malformation Form :=
  match body with
  | .list [key, attr] =>
    match key.asString, attr.asString with
    | some key, some attr => .ok (.attributeOf key attr)
    | _, _ => .error .attributeElements
  | .list items => .error (.attributeLength items.length)
  | other =>
    match other.asString.bind Text.cutAtDot with
    | some (key, attr) => .ok (.attributeOf key attr)
    | none => .error .attributeName

/-- The form in the body of a substitution: a pattern, or a pattern with its arguments. -/
def ofSubBody (body : Value) : Except Malformation Form :=
  match body with
  | .scalar (.string pattern) => .ok (.substitution pattern none)
  | .list [pattern, .map arguments] =>
    match pattern.asString with
    | some pattern => .ok (.substitution pattern (some arguments))
    | none => .error .pattern
  | .list _ => .error .patternArguments
  | other => .error (.substitution other.shape)

/-- The form that a node stands for, if it stands for one. -/
def recognize? (value : Value) : Except Malformation (Option Form) :=
  match value with
  | .map [(key, body)] =>
    if key = refKey then (ofRefBody body).map some
    else if key = getAttKey then (ofGetAttBody body).map some
    else if key = subKey then (ofSubBody body).map some
    else .ok none
  | _ => .ok none

/-- Recognition that takes malformed nodes for ordinary ones. -/
def peek (value : Value) : Option Form :=
  (recognize? value).toOption.join

end Form

/-! ## Written forms -/

namespace Value

/-- A reference to a name. -/
def ref (key : String) : Value :=
  .map [(Form.refKey, .string key)]

/-- A reference to an attribute, as a list of two strings. -/
def getAtt (key attr : String) : Value :=
  .map [(Form.getAttKey, .list [.string key, .string attr])]

/-- A substitution; an empty argument map is left out. -/
def sub (pattern : String) (arguments : Fields Value) : Value :=
  .map [(Form.subKey,
    if arguments.isEmpty then .string pattern else .list [.string pattern, .map arguments])]

/-- A list whose items are to be joined. -/
def joinItems (delimiter : String) (items : Value) : Value :=
  .map [("Fn::Join", .list [.string delimiter, items])]

end Value

namespace Form

@[simp] theorem recognize?_ref (key : String) :
    recognize? (.ref key) = .ok (some (.reference key)) := by
  simp [recognize?, Value.ref, ofRefBody, Value.string, Value.asString, Except.map]

@[simp] theorem recognize?_getAtt (key attr : String) :
    recognize? (.getAtt key attr) = .ok (some (.attributeOf key attr)) := by
  simp [recognize?, Value.getAtt, getAttKey, refKey, ofGetAttBody, Value.string, Value.asString,
    Except.map]

theorem recognize?_sub (pattern : String) (arguments : Fields Value) :
    recognize? (.sub pattern arguments) =
      .ok (some (.substitution pattern (if arguments.isEmpty then none else some arguments))) := by
  by_cases h : arguments.isEmpty <;>
    simp [recognize?, Value.sub, getAttKey, refKey, subKey, ofSubBody, Value.string,
      Value.asString, Except.map, h]

end Form

end StackLinker
