import StackLinker.Fields

/-!
# Dependency cycles

A graph lists names, each with the names that it leads to directly.  `reachable` follows the arrows
from a name, each arrow once; `closure` does so for every name.  `components` are the strongly
connected components, read off from the closure.  Those that are cycles are several names that lead
to each other, or a single name with an arrow to itself; `arrange` picks them out and puts members
and groups in the order of the graph.
-/

namespace StackLinker.Dependency

/-- Names in order, each with the names that it leads to directly. -/
abbrev Graph := Fields (List String)

/-- The names that a name leads to directly. -/
def targets (graph : Graph) (name : String) : List String :=
  (graph.find? name).getD []

/-- Follows arrows from a frontier for a number of steps.  The names on the frontier are the reached
ones whose arrows have not been followed; a step that reaches nothing new ends the search. -/
def spread (graph : Graph) : Nat → List String → List String → List String
  | 0, reached, _ => reached
  | steps + 1, reached, frontier =>
    let next :=
      ((frontier.flatMap (targets graph)).filter fun name => !reached.contains name).eraseDups
    if next.isEmpty then reached else spread graph steps (reached ++ next) next

/-- The names that a name leads to in one or more steps.  Every step but the last reaches a new
name of the graph, so there are at most as many steps as names. -/
def reachable (graph : Graph) (name : String) : List String :=
  let first := (targets graph name).eraseDups
  spread graph graph.length first first

/-- The graph of arrows that take one or more steps. -/
def closure (graph : Graph) : Graph :=
  graph.map fun node => (node.1, reachable graph node.1)

/-- A name with the names that it leads to and that lead back to it, in the order of the graph. -/
def componentOf (closure : Graph) (name : String) (reached : List String) : List String :=
  (closure.filter fun node =>
    node.1 == name || reached.contains node.1 && node.2.contains name).map (·.1)

/-- The strongly connected components, each listed once. -/
def components (graph : Graph) : List (List String) :=
  let closure := closure graph
  closure.filterMap fun node =>
    let component := componentOf closure node.1 node.2
    if component.head? = some node.1 then some component else none

/-! ## Arrangement -/

/-- Inserts an item in front of the first one whose key is not smaller. -/
def insertBy {α : Type} (key : α → Nat) (item : α) : List α → List α
  | [] => [item]
  | other :: rest =>
    if key item ≤ key other then item :: other :: rest else other :: insertBy key item rest

/-- Sorts items by their keys. -/
def sortBy {α : Type} (key : α → Nat) : List α → List α
  | [] => []
  | item :: rest => insertBy key item (sortBy key rest)

/-- Where a name stands in the graph. -/
def position (graph : Graph) (name : String) : Nat :=
  (Fields.keys graph).idxOf name

/-- Whether a component is a cycle.  A single name is one only if it has an arrow to itself. -/
def loops (graph : Graph) : List String → Bool
  | [only] => (targets graph only).contains only
  | _ => true

/-- The components that are cycles, each with its members in the order of the graph, in the order of
their first members. -/
def arrange (graph : Graph) (components : List (List String)) : List (List String) :=
  sortBy (fun members => position graph (members.headD ""))
    ((components.filter (loops graph)).map (sortBy (position graph)))

/-- The groups of names that lead to each other. -/
def cycles (graph : Graph) : List (List String) :=
  arrange graph (components graph)

end StackLinker.Dependency
