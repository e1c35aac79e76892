import StackLinker.ModuleGraph
import StackLinker.Value.StructuralError

/-!
# Free and bound entities

Before resolution the entities of a module are split into free ones, whose references are settled,
and bound ones, whose references may still hold symbolic forms.  A scalar and a list of scalars are
free; every other shape is bound.  Both parts keep the order of declaration, and `order` remembers
it for putting the graph together again.
-/

namespace StackLinker

/-- Whether a reference is settled by its shape. -/
inductive Classification where
  | free
  | bound
deriving DecidableEq, Repr

namespace Value

/-- The class of a reference of the entity with the given name. -/
def classify (name : String) : Value → Except StructuralError Classification
  | .null => .error (.nullValue [name])
  | .scalar _ => .ok .free
  | .list items => .ok (if items.all isScalar then .free else .bound)
  | .map _ => .ok .bound
  | .record .. => .ok .bound

end Value

/-- A module split into free and bound entities. -/
structure Partition where
  name : String
  order : List String
  free : List Entity
  bound : List Entity
deriving DecidableEq, Repr

/-- Puts an entity in front of the part that its class names. -/
def Classification.place (classification : Classification) (entity : Entity)
    (parts : List Entity × List Entity) : List Entity × List Entity :=
  match classification with
  | .free => (entity :: parts.1, parts.2)
  | .bound => (parts.1, entity :: parts.2)

/-- Splits entities by the class of their references. -/
def Entity.split : List Entity → Except StructuralError (List Entity × List Entity)
  | [] => .ok ([], [])
  | entity :: rest =>
    match entity.reference.classify entity.fullName with
    | .error e => .error e
    | .ok classification => (split rest).map (classification.place entity)

/-- Splits the entities of a module. -/
def ModuleGraph.partition (graph : ModuleGraph) : Except StructuralError Partition :=
  (Entity.split graph.entities).map fun parts =>
    { name := graph.name, order := graph.names, free := parts.1, bound := parts.2 }

namespace Partition

/-- The entity with a full name, in either part. -/
def get? (partition : Partition) (name : String) : Option Entity :=
  (Entity.find? name partition.free).or (Entity.find? name partition.bound)

/-- The module in the order of declaration. -/
def toGraph (partition : Partition) : ModuleGraph where
  name := partition.name
  entities := partition.order.filterMap partition.get?

end Partition

end StackLinker
