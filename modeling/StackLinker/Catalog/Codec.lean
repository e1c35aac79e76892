import StackLinker.Catalog
import StackLinker.Decode

/-!
# Reading type tables

A table is an object with the attributes of each type and whether other types are accepted.
-/

namespace StackLinker.TypeTable

/-- The fields of a table. -/
def layout : Decode.Layout where
  name := "StaticCatalog"
  fields := [("types", true), ("allow_unknown_types", true)]

/-- Reads one field. -/
def set (field : String) (json : Json) (table : TypeTable) : Decode.Result TypeTable :=
  match field with
  | "types" =>
    (Decode.mapping (Decode.list Decode.string) json).map fun x => { table with types := x }
  | "allow_unknown_types" =>
    (Decode.bool json).map fun x => { table with allowUnknownTypes := x }
  | _ => .ok table

/-- Reads a table. -/
def ofJson (json : Json) : Decode.Result TypeTable :=
  layout.read set {} json

end StackLinker.TypeTable
