import StackLinker.Form

/-!
# The document schema

Which JSON trees are module documents by the published schema.  The schema is stricter than the
reader of documents in some points and laxer in others: it knows the shapes of symbolic forms and
refuses nulls in values, but it says nothing about the content of provider declarations or about
repeated names.
-/

namespace StackLinker.Schema

/-- A string. -/
def isText : Json → Bool
  | .string _ => true
  | _ => false

/-- A string with at least one character. -/
def isNonemptyText : Json → Bool
  | .string s => !s.isEmpty
  | _ => false

/-- An array of strings. -/
def isTextList : Json → Bool
  | .array items => items.all isText
  | _ => false

/-- An object. -/
def isObject : Json → Bool
  | .object _ => true
  | _ => false

/-- Whether a key is present. -/
def has (key : String) (members : List (String × Json)) : Bool :=
  Fields.contains key members

/-! ## Symbolic forms -/

/-- A name, a dot, and at least one more character, on one line from the dot on. -/
def isDottedName (s : String) : Bool :=
  match Text.cutAt '.' s.toList with
  | some (name, attr) => !name.isEmpty && !attr.isEmpty && !attr.contains '\n'
  | none => false

/-- The body of an attribute reference. -/
def isAttributeBody : Json → Bool
  | .array [key, attr] => isText key && isText attr
  | .string s => isDottedName s
  | _ => false

/-- Whether an object has none of the reserved keys. -/
def isUnreserved (members : List (String × Json)) : Bool :=
  !has Form.refKey members && !has Form.getAttKey members && !has Form.subKey members

mutual

/-- A value: a scalar, an array of values, a symbolic form, or an object without reserved keys
whose members are values. -/
def isExpression : Json → Bool
  | .null => false
  | .bool _ => true
  | .number _ => true
  | .string _ => true
  | .array items => areExpressions items
  | .object members => isForm members || (isUnreserved members && haveExpressions members)

/-- An object with a reserved key alone and a body that fits the key. -/
def isForm : List (String × Json) → Bool
  | [(key, body)] =>
    if key = Form.refKey then isNonemptyText body
    else if key = Form.getAttKey then isAttributeBody body
    else if key = Form.subKey then isSubstitutionBody body
    else false
  | _ => false

/-- The body of a substitution. -/
def isSubstitutionBody : Json → Bool
  | .string _ => true
  | .array items => arePatternAndArguments items
  | _ => false

/-- A pattern followed by arguments. -/
def arePatternAndArguments : List Json → Bool
  | [.string _, .object arguments] => haveExpressions arguments
  | _ => false

/-- Items that are all values. -/
def areExpressions : List Json → Bool
  | [] => true
  | x :: xs => isExpression x && areExpressions xs

/-- Members that are all values. -/
def haveExpressions : List (String × Json) → Bool
  | [] => true
  | (_, x) :: rest => isExpression x && haveExpressions rest

end

/-! ## Declarations -/

/-- A field of a provider declaration. -/
def isResourceField : String × Json → Bool
  | ("Type", json) => isText json
  | ("Condition", json) => isText json
  | ("DependsOn", json) => isTextList json
  | ("DeletionPolicy", json) => isText json
  | ("Metadata", json) => isObject json
  | ("Properties", json) => isObject json
  | _ => false

/-- A provider declaration. -/
def isResource : Json → Bool
  | .object members => has "Type" members && members.all isResourceField
  | _ => false

/-- A name of its own: at least one character, and no dot. -/
def isOwnName : Json → Bool
  | .string s => !s.isEmpty && !s.toList.contains '.'
  | _ => false

/-- One of several strings. -/
def isOneOf (names : List String) : Json → Bool
  | .string s => names.contains s
  | _ => false

/-- The names of the kinds of entities. -/
def kindNames : List String := ["Value", "Input", "Resource", "Function", "Package", "Variable"]

/-- The names of the kinds that may carry a provider declaration. -/
def managedKindNames : List String := ["Resource", "Function"]

/-- A field of an entity other than its children. -/
def isEntityField (key : String) (json : Json) : Bool :=
  match key with
  | "name" => isOwnName json
  | "kind" => isOneOf kindNames json
  | "type" => isText json
  | "value" => isExpression json
  | "resource" => isResource json
  | "scope" => isTextList json
  | "pragmas" => isTextList json
  | _ => false

/-- Whether the kind among the members may carry a provider declaration. -/
def hasManagedKind (members : List (String × Json)) : Bool :=
  match Fields.find? "kind" members with
  | some json => isOneOf managedKindNames json
  | none => true

mutual

/-- The declaration of an entity. -/
def isEntity : Json → Bool
  | .object members =>
    has "name" members && has "kind" members && areEntityFields members &&
      (!has "resource" members || hasManagedKind members)
  | _ => false

/-- Members that are all fields of an entity. -/
def areEntityFields : List (String × Json) → Bool
  | [] => true
  | (key, json) :: rest =>
    (if key = "entities" then isEntityList json else isEntityField key json) &&
      areEntityFields rest

/-- An array of declarations. -/
def isEntityList : Json → Bool
  | .array items => areEntities items
  | _ => false

/-- Items that are all declarations. -/
def areEntities : List Json → Bool
  | [] => true
  | x :: xs => isEntity x && areEntities xs

end

/-- A field of a document. -/
def isDocumentField : String × Json → Bool
  | ("module", json) => isNonemptyText json
  | ("entities", json) => isEntityList json
  | _ => false

/-- A module document. -/
def isDocument : Json → Bool
  | .object members => has "module" members && members.all isDocumentField
  | _ => false

end StackLinker.Schema
