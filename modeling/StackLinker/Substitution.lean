import StackLinker.Catalog
import StackLinker.Diagnostic
import StackLinker.Form.Rule
import StackLinker.ModuleGraph
import StackLinker.Placeholder

/-!
# Substitution

One pass over a value settles its symbolic forms against the entities that are free, and notes
every name that it has to leave in place: names of bound entities, and names outside the module.

* A reference to a free entity becomes that entity's value.
* An attribute of a free entity becomes an attribute of its provider resource, if the catalog
  allows it.
* A placeholder of a free entity becomes text: the text of a scalar, a placeholder for a reference
  or an attribute, and otherwise a new argument that holds the value.

Exempt names stay as they are, and so do placeholders that the substitution's own arguments bind.
-/

namespace StackLinker

/-- A name that a pass had to leave in place. -/
structure Unresolved where
  key : String
  path : Path
deriving DecidableEq, Repr

/-- What a pass found besides the new value. -/
structure Outcome where
  /-- Names of bound entities. -/
  bound : List Unresolved := []
  /-- Names outside the module. -/
  missing : List Unresolved := []
  invalid : List Diagnostic := []
deriving DecidableEq, Repr, Inhabited

/-- Whether no name was left in place. -/
def Outcome.isResolved (outcome : Outcome) : Bool :=
  outcome.bound.isEmpty && outcome.missing.isEmpty

/-- What a pass sees: the free entities, the names of the bound ones, and the conventions. -/
structure Surroundings where
  config : Config
  catalog : Catalog
  free : List Entity
  bound : List String

/-- What a name stands for. -/
inductive Meaning where
  | exempt
  | free (target : Entity)
  | bound
  | missing

/-- Notes a name that stays in place, unless it is exempt. -/
def Outcome.leave (outcome : Outcome) (meaning : Meaning) (key : String) (path : Path) : Outcome :=
  match meaning with
  | .bound => { outcome with bound := outcome.bound ++ [⟨key, path⟩] }
  | .missing => { outcome with missing := outcome.missing ++ [⟨key, path⟩] }
  | .exempt | .free _ => outcome

/-- Notes a request for an attribute that cannot be met. -/
def Outcome.refuse (outcome : Outcome) (diagnostic : Diagnostic) : Outcome :=
  { outcome with invalid := outcome.invalid ++ [diagnostic] }

namespace Surroundings

/-- What a name stands for.  Exempt names are never looked up. -/
def meaning (around : Surroundings) (key : String) : Meaning :=
  if around.config.isExempt key then .exempt
  else
    match Entity.find? key around.free with
    | some target => .free target
    | none => if key ∈ around.bound then .bound else .missing

/-- Whether an attribute of an entity may be read: the kind must have attributes, and the catalog
must list it unless the entity opts out. -/
def checkAttribute (around : Surroundings) (source : String) (target : Entity) (attr : String)
    (path : Path) : Except Diagnostic Unit :=
  if !target.kind.isManaged then
    .error (.invalidAttribute source target.fullName path.text
      ("attribute " ++ Text.quoted attr ++ " requested from " ++ Text.quoted target.fullName ++
        ", but a " ++ target.kind.name ++ " has no attributes"))
  else if target.hasPragma .noTypeValidation then .ok ()
  else if around.catalog.supports target.typeName attr then .ok ()
  else
    .error (.invalidAttribute source target.fullName path.text
      (Text.quoted target.fullName ++ " of type " ++ Text.quoted target.typeName ++
        " has no attribute " ++ Text.quoted attr))

/-! ## References and attributes -/

/-- What a reference becomes. -/
def reference (around : Surroundings) (path : Path) (node : Value) (key : String)
    (outcome : Outcome) : Value × Outcome :=
  match around.meaning key with
  | .free target => (target.reference, outcome)
  | other => (node, outcome.leave other key path)

/-- What an attribute reference becomes. -/
def attributeOf (around : Surroundings) (source : String) (path : Path) (node : Value)
    (key attr : String) (outcome : Outcome) : Value × Outcome :=
  match around.meaning key with
  | .free target =>
    match around.checkAttribute source target attr path with
    | .ok () => (.getAtt (target.resourceName around.config) attr, outcome)
    | .error e => (node, outcome.refuse e)
  | other => (node, outcome.leave other key path)

/-! ## Patterns -/

/-- Where the filling of a pattern stands. -/
structure Filling where
  /-- The arguments, declared and added ones. -/
  arguments : Fields Value
  /-- The number to try next for an added argument. -/
  next : Nat
  /-- Whether some placeholder was replaced. -/
  changed : Bool
  outcome : Outcome

/-- The name of the added argument with a number. -/
def syntheticName (around : Surroundings) (number : Nat) : String :=
  around.config.syntheticMarker ++ Nat.repr number

/-- The first number from `number` on whose name is not taken.  There are at most as many taken
names as arguments, which bounds the search. -/
def freshNumber (around : Surroundings) (arguments : Fields Value) : Nat → Nat → Nat
  | 0, number => number
  | limit + 1, number =>
    if arguments.contains (around.syntheticName number) then
      around.freshNumber arguments limit (number + 1)
    else number

/-- The text for a placeholder whose target has the given value. -/
def splice (around : Surroundings) (value : Value) (filling : Filling) : String × Filling :=
  match value with
  | .scalar s => (s.text, filling)
  | other =>
    match Form.peek other with
    | some (.reference key) => ((Placeholder.mk key none).text, filling)
    | some (.attributeOf key attr) => ((Placeholder.mk key (some attr)).text, filling)
    | _ =>
      let number := around.freshNumber filling.arguments filling.arguments.length filling.next
      let name := around.syntheticName number
      ((Placeholder.mk name none).text,
        { filling with
          arguments := filling.arguments.insert name other
          next := number + 1 })

/-- The text to put in the place of a placeholder, if it can be replaced. -/
def answer (around : Surroundings) (source : String) (path : Path) (placeholder : Placeholder)
    (filling : Filling) : Option String × Filling :=
  if filling.arguments.contains placeholder.name then (none, filling)
  else
    match around.meaning placeholder.name with
    | .free target =>
      match placeholder.attr with
      | none =>
        let spliced := around.splice target.reference filling
        (some spliced.1, { spliced.2 with changed := true })
      | some attr =>
        match around.checkAttribute source target attr path with
        | .ok () =>
          (some (Placeholder.mk (target.resourceName around.config) (some attr)).text,
            { filling with changed := true })
        | .error e => (none, { filling with outcome := filling.outcome.refuse e })
    | other =>
      (none, { filling with outcome := filling.outcome.leave other placeholder.name path })

/-- What a substitution becomes.  Without arguments and holes it is a plain text. -/
def substitution (around : Surroundings) (source : String) (path : Path) (node : Value)
    (pattern : String) (arguments : Option (Fields Value)) (outcome : Outcome) : Value × Outcome :=
  let filled := Pattern.fill (around.answer source path) pattern
    { arguments := arguments.getD [], next := 0, changed := false, outcome := outcome }
  let text := filled.1
  let filling := filled.2
  if filling.arguments.isEmpty && !Pattern.hasHoles text then (.string text, filling.outcome)
  else if filling.changed then (.sub text filling.arguments, filling.outcome)
  else (node, filling.outcome)

/-! ## The pass -/

/-- What a symbolic form becomes on behalf of an entity. -/
def settle (around : Surroundings) (source : String) : FormAction Outcome
  | path, node, .reference key, outcome => around.reference path node key outcome
  | path, node, .attributeOf key attr, outcome =>
    around.attributeOf source path node key attr outcome
  | path, node, .substitution pattern arguments, outcome =>
    around.substitution source path node pattern arguments outcome

/-- The rule of a pass on behalf of an entity. -/
def rule (around : Surroundings) (source : String) : Rule Outcome :=
  Rule.ofForms (around.settle source)

/-- One pass over a value on behalf of an entity, which also names the root of the paths. -/
def apply (around : Surroundings) (source : String) (value : Value) :
    Except StructuralError (Value × Outcome) :=
  (value.traverse (around.rule source) [source] {}).toExcept

end Surroundings

end StackLinker
