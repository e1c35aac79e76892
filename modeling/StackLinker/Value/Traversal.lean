import StackLinker.Value.StructuralError

/-!
# Traversal

A rule changes a value tree from the leaves up: the children of a node come before the node itself,
so the rule sees them already changed, and what it puts in place of a node is not entered again.
Scalars are passed over.  The traversal stops at the first null or at the first node that the rule
refuses; what was changed before that stays changed.
-/

namespace StackLinker

/-- What a rule does with a compound node: the node to put in its place and the notes taken so far,
or a refusal. -/
abbrev Rule (ν : Type) := Path → Value → ν → Except StructuralError (Value × ν)

/-- Where a traversal stands: the tree so far, its notes, and the fault that ended it. -/
structure Progress (ν α : Type) where
  result : α
  notes : ν
  failure : Option StructuralError

namespace Progress

variable {ν α β : Type}

/-- The same traversal of a larger part of the tree. -/
def map (wrap : α → β) (progress : Progress ν α) : Progress ν β :=
  ⟨wrap progress.result, progress.notes, progress.failure⟩

/-- Goes on with a second part of the tree unless the first part ended the traversal. -/
def andThen (first : Progress ν α) (rest : α) (next : ν → Progress ν α)
    (join : α → α → β) : Progress ν β :=
  match first.failure with
  | some e => ⟨join first.result rest, first.notes, some e⟩
  | none => (next first.notes).map (join first.result)

/-- Applies a rule to a node whose children are done. -/
def visit (rule : Rule ν) (path : Path) (progress : Progress ν Value) : Progress ν Value :=
  match progress.failure with
  | some _ => progress
  | none =>
    match rule path progress.result progress.notes with
    | .error e => { progress with failure := some e }
    | .ok (value, notes) => ⟨value, notes, none⟩

/-- The outcome of a traversal whose partial result is of no use. -/
def toExcept (progress : Progress ν α) : Except StructuralError (α × ν) :=
  match progress.failure with
  | some e => .error e
  | none => .ok (progress.result, progress.notes)

end Progress

namespace Value

variable {ν : Type}

mutual

/-- Applies a rule throughout a value that stands at a path. -/
def traverse (rule : Rule ν) (path : Path) : Value → ν → Progress ν Value
  | .null, notes => ⟨.null, notes, some (.nullValue path)⟩
  | .scalar s, notes => ⟨.scalar s, notes, none⟩
  | .list items, notes => ((traverseItems rule path 0 items notes).map .list).visit rule path
  | .map entries, notes => ((traverseEntries rule path entries notes).map .map).visit rule path
  | .record header metadata properties, notes =>
    ((traverse rule (path.push "Metadata") metadata notes).andThen properties
      (fun notes => traverse rule (path.push "Properties") properties notes)
      (.record header)).visit rule path

/-- Applies a rule throughout the items of a list, the first of which has the given index. -/
def traverseItems (rule : Rule ν) (path : Path) :
    Nat → List Value → ν → Progress ν (List Value)
  | _, [], notes => ⟨[], notes, none⟩
  | index, x :: xs, notes =>
    let head := traverse rule (path.push (Nat.repr index)) x notes
    match head.failure with
    | some e => ⟨head.result :: xs, head.notes, some e⟩
    | none => (traverseItems rule path (index + 1) xs head.notes).map (head.result :: ·)

/-- Applies a rule throughout the entries of a map. -/
def traverseEntries (rule : Rule ν) (path : Path) :
    List (String × Value) → ν → Progress ν (List (String × Value))
  | [], notes => ⟨[], notes, none⟩
  | (key, x) :: rest, notes =>
    let head := traverse rule (path.push key) x notes
    match head.failure with
    | some e => ⟨(key, head.result) :: rest, head.notes, some e⟩
    | none => (traverseEntries rule path rest head.notes).map ((key, head.result) :: ·)

end

end Value

end StackLinker
