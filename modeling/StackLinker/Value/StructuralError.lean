import StackLinker.Text
import StackLinker.Value

/-!
# Structural errors

A traversal stops at the first node that no rule can make sense of: a null, or a map whose single
key is reserved for a symbolic form but whose body has the wrong shape.
-/

namespace StackLinker

/-- The place of a node: the root name, then the keys, indices and field names that lead to it. -/
abbrev Path := List String

namespace Path

/-- The path of a child. -/
def push (path : Path) (segment : String) : Path := path ++ [segment]

/-- A path as it is shown in messages. -/
def text (path : Path) : String := Text.join "/" path

end Path

/-- Why the body of a reserved key is not a symbolic form. -/
inductive Malformation where
  /-- The target of a reference is not a name. -/
  | referenceTarget (found : Shape)
  /-- An attribute list does not have two elements. -/
  | attributeLength (found : Nat)
  /-- An attribute list holds something other than two strings. -/
  | attributeElements
  /-- An attribute is neither a list nor a dotted name. -/
  | attributeName
  /-- The pattern beside an argument map is not a string. -/
  | pattern
  /-- A list is not a pattern with an argument map. -/
  | patternArguments
  /-- A substitution is neither a pattern nor a list. -/
  | substitution (found : Shape)
deriving DecidableEq, Repr

namespace Malformation

/-- The reserved key with the faulty body. -/
def keyword : Malformation → String
  | referenceTarget _ => "Ref"
  | attributeLength _ | attributeElements | attributeName => "Fn::GetAtt"
  | pattern | patternArguments | substitution _ => "Fn::Sub"

/-- What was expected, and what was found. -/
def message : Malformation → String
  | referenceTarget found => "expected a name, found " ++ found.name
  | attributeLength found => "expected 2 elements, found " ++ Nat.repr found
  | attributeElements => "expected [name, attribute] strings"
  | attributeName => "expected 'name.attribute'"
  | pattern => "pattern must be a string"
  | patternArguments => "expected [pattern, \x7barguments\x7d]"
  | substitution found => "expected a pattern, found " ++ found.name

end Malformation

/-- The fault that ends a traversal. -/
inductive StructuralError where
  | nullValue (path : Path)
  | malformed (path : Path) (reason : Malformation)
deriving DecidableEq, Repr

namespace StructuralError

/-- The text of a structural error. -/
def message : StructuralError → String
  | nullValue path => "null value at " ++ path.text
  | malformed path reason =>
    "malformed " ++ reason.keyword ++ " expression at " ++ path.text ++ ": " ++ reason.message

end StructuralError

end StackLinker
