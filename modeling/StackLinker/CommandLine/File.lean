import StackLinker.Decode
import StackLinker.Json.Reader
import StackLinker.Yaml.Expected

/-!
# Files that a command reads

A path leads to a text or to a reason why there is none.  The extension of the path tells the format
of the text, and the format together with what is expected of the file tells the data in it.
-/

namespace StackLinker.CommandLine

/-- What stands at a path. -/
inductive FileContent where
  | text (source : String)
  | missing
  | directory
  /-- A part of the path that should be a directory is a file. -/
  | notADirectory
  /-- The path or a part of it is longer than a name may be. -/
  | nameTooLong
  /-- The file may not be read. -/
  | denied
  /-- The bytes of the file are no text. -/
  | notText
deriving DecidableEq, Repr

/-- The text at a path, or why there is none. -/
def FileContent.read : FileContent → Except String String
  | text source => .ok source
  | missing => .error "No such file or directory (os error 2)"
  | directory => .error "Is a directory (os error 21)"
  | notADirectory => .error "Not a directory (os error 20)"
  | nameTooLong => .error "File name too long (os error 36)"
  | denied => .error "Permission denied (os error 13)"
  | notText => .error "stream did not contain valid UTF-8"

/-- Whether a file stands there, readable or not. -/
def FileContent.isFile : FileContent → Bool
  | text _ | denied | notText => true
  | missing | directory | notADirectory | nameTooLong => false

/-- The files that a command may read. -/
abbrev Files := String → FileContent

/-! ## Formats -/

/-- The formats of documents and catalogs. -/
inductive FileFormat where
  | json
  | yaml
deriving DecidableEq, Repr

namespace FileFormat

/-- The name of a format. -/
def name : FileFormat → String
  | json => "JSON"
  | yaml => "YAML"

/-- The name at the end of a path. -/
def fileName (path : String) : List Char :=
  let trimmed := (path.toList.reverse.dropWhile (· == '/')).reverse
  (trimmed.reverse.takeWhile (· != '/')).reverse

/-- Whether a path has the given extension.  A dot at the start of a name begins no extension. -/
def hasExtension (extension : String) (path : String) : Bool :=
  let ending := '.' :: extension.toList
  let name := fileName path
  ending.isSuffixOf name && decide (ending.length < name.length)

/-- The format of a file, as told by its extension. -/
def ofPath (path : String) : FileFormat :=
  if hasExtension "yaml" path || hasExtension "yml" path then .yaml else .json

/-- The data that a text holds. -/
def parse? (expected : Yaml.Expected) (source : String) : FileFormat → Option Json
  | json => Json.readWritten? source
  | yaml => Yaml.read? expected source

end FileFormat

/-! ## Reading -/

/-- The text of a document file. -/
def readSource (files : Files) (path : String) : Except String String :=
  (files path).read.mapError fun reason =>
    "error reading file " ++ Text.quoted path ++ ": " ++ reason

/-- The complaint about a file that does not hold what it should. -/
def parseComplaint (path : String) : String :=
  "error parsing " ++ (FileFormat.ofPath path).name ++ " in " ++ Text.quoted path

/-- The tree in a file as it is written. -/
def readTree (expected : Yaml.Expected) (files : Files) (path : String) : Except String Json := do
  let source ← readSource files path
  match (FileFormat.ofPath path).parse? expected source with
  | some json => return json
  | none => throw (parseComplaint path)

/-- Data in a file.  Repeated fields are refused where the data has named fields, and settled
elsewhere. -/
def readData {α : Type} (expected : Yaml.Expected) (decode : Json → Decode.Result α)
    (files : Files) (path : String) : Except String α := do
  let written ← readTree expected files path
  match decode written, decode written.merged with
  | .ok _, .ok data => return data
  | _, _ => throw (parseComplaint path)

end StackLinker.CommandLine
