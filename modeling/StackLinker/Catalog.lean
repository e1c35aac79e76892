import StackLinker.Fields

/-!
# Type catalogs

A catalog says which attributes a provider type has.  The permissive catalog accepts every
attribute of every type; a table lists them.
-/

namespace StackLinker

/-- Which attributes a type has. -/
structure Catalog where
  supports : (typeName attr : String) → Bool

/-- The catalog that accepts every attribute of every type. -/
def Catalog.permissive : Catalog where
  supports _ _ := true

/-- A table of types with their attributes. -/
structure TypeTable where
  types : Fields (List String) := []
  /-- Whether types outside the table have every attribute. -/
  allowUnknownTypes : Bool := false
deriving DecidableEq, Repr, Inhabited

/-- The catalog that a table describes. -/
def TypeTable.catalog (table : TypeTable) : Catalog where
  supports typeName attr :=
    match Fields.find? typeName table.types with
    | some attributes => attributes.contains attr
    | none => table.allowUnknownTypes

end StackLinker
