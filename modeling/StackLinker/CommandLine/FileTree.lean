import StackLinker.CommandLine.File

/-!
# A tree of files

A path is followed part by part, from the root if it starts with a slash and from the working
directory otherwise.  Every part is looked up in a directory, also an empty one and those that mean
the directory itself or the one above it, so a slash after the name of a file leads nowhere.
-/

namespace StackLinker.CommandLine

/-- A place in a tree of files, as the names that lead to it from the root. -/
abbrev Place := List String

/-- Files, directories that may be empty, and the working directory. -/
structure FileTree where
  files : List (Place × String)
  directories : List Place
  base : Place

namespace FileTree

/-- The greatest number of bytes of a name. -/
def greatestName : Nat := 255

/-- The greatest number of bytes of a path. -/
def greatestPath : Nat := 4095

/-- The parts of a path between its slashes. -/
def parts (path : String) : List String := path.splitOn "/"

/-- What stands at a place. -/
def contentAt (tree : FileTree) (place : Place) : FileContent :=
  match tree.files.find? fun file => file.1 == place with
  | some (_, source) => .text source
  | none =>
    if (tree.base :: tree.directories ++ tree.files.map (·.1)).any (place.isPrefixOf ·) then
      .directory
    else .missing

/-- Goes from a place to the part of that name. -/
def step (tree : FileTree) (place : Place) (part : String) : Except FileContent Place :=
  match tree.contentAt place with
  | .directory =>
    if part = "" ∨ part = "." then .ok place
    else if part = ".." then .ok place.dropLast
    else if greatestName < part.utf8ByteSize then .error .nameTooLong
    else .ok (place ++ [part])
  | .text _ => .error .notADirectory
  | other => .error other

/-- What stands at the end of a path. -/
def lookAt (tree : FileTree) (path : String) : FileContent :=
  if path.isEmpty then .missing
  else if greatestPath < path.utf8ByteSize then .nameTooLong
  else
    match (parts path).foldlM tree.step (if Text.startsWith "/" path then [] else tree.base) with
    | .ok place => tree.contentAt place
    | .error content => content

end FileTree

end StackLinker.CommandLine
