import StackLinker.Text

/-!
# Arguments

The command line is a list of words: general options, which may also follow the command, the
command, its options, and one module path.  An option is given at most once before the command and
at most once after it, and the later one counts.  After `--` every word is a path.
-/

namespace StackLinker.CommandLine

/-- How answers are written. -/
inductive OutputFormat where
  | text
  | json
deriving DecidableEq, Repr, Inhabited

/-- The options that every command knows. -/
structure GeneralOptions where
  output : Option OutputFormat := none
  quiet : Bool := false
  verbose : Bool := false
  config : Option String := none
deriving DecidableEq, Repr, Inhabited

/-- The commands. -/
inductive Verb where
  | link
  | template
  | env
  | validate
deriving DecidableEq, Repr

namespace Verb

/-- The command with a name. -/
def ofName? : String → Option Verb
  | "link" => some link
  | "template" => some template
  | "env" => some env
  | "validate" => some validate
  | _ => none

/-- Whether a command links, and so may restrict attributes by a catalog. -/
def links : Verb → Bool
  | validate => false
  | _ => true

end Verb

/-- A command with its own options. -/
structure Command where
  verb : Verb
  module : String
  catalog : Option String := none
  function : Option String := none
deriving DecidableEq, Repr

/-- What a command line asks for. -/
inductive Request where
  | version
  | command (options : GeneralOptions) (command : Command)
deriving DecidableEq, Repr

/-- The options read at one level, before the command or after it. -/
structure Draft where
  general : GeneralOptions := {}
  catalog : Option String := none
  function : Option String := none
  module : Option String := none

namespace Draft

/-- Puts a value where none was given before. -/
def once {α : Type} (old : Option α) (new : α) : Option (Option α) :=
  if old.isSome then none else some (some new)

/-- Sets a flag that was not given before. -/
def flag (old : Bool) : Option Bool :=
  if old then none else some true

/-- Sets the output format. -/
def setOutput (draft : Draft) (word : String) : Option Draft := do
  let format ←
    match word with
    | "text" => some OutputFormat.text
    | "json" => some OutputFormat.json
    | _ => none
  let output ← once draft.general.output format
  some { draft with general := { draft.general with output := output } }

/-- Sets the configuration path. -/
def setConfig (draft : Draft) (path : String) : Option Draft :=
  if path.isEmpty then none
  else (once draft.general.config path).map fun config =>
    { draft with general := { draft.general with config := config } }

/-- Sets the catalog path. -/
def setCatalog (draft : Draft) (path : String) : Option Draft :=
  if path.isEmpty then none
  else (once draft.catalog path).map fun catalog => { draft with catalog := catalog }

/-- Sets the function. -/
def setFunction (draft : Draft) (name : String) : Option Draft :=
  (once draft.function name).map fun function => { draft with function := function }

/-- Sets the module path. -/
def setModule (draft : Draft) (path : String) : Option Draft :=
  if path.isEmpty then none
  else (once draft.module path).map fun module => { draft with module := module }

/-- Sets a flag by its name. -/
def setFlag (draft : Draft) (name : String) : Option Draft :=
  match name with
  | "quiet" => (flag draft.general.quiet).map fun quiet =>
      { draft with general := { draft.general with quiet := quiet } }
  | "verbose" => (flag draft.general.verbose).map fun verbose =>
      { draft with general := { draft.general with verbose := verbose } }
  | _ => none

/-- How an option that takes a value is set, if the command knows it. -/
def setter? (verb : Option Verb) (name : String) : Option (Draft → String → Option Draft) :=
  match name with
  | "output" => some setOutput
  | "config" => some setConfig
  | "catalog" => if verb.any Verb.links then some setCatalog else none
  | "function" => if verb = some .env then some setFunction else none
  | _ => none

end Draft

/-- The kinds of words. -/
inductive Word where
  /-- Two dashes: only paths follow. -/
  | escape
  /-- A long option with the value that is attached to it. -/
  | long (name : String) (value : Option String)
  /-- Short options. -/
  | short (names : List Char)
  | plain (text : String)
deriving DecidableEq, Repr

namespace Word

/-- The kind of a word.  A single dash is a plain word. -/
def ofText (text : String) : Word :=
  match text.toList with
  | ['-', '-'] => escape
  | '-' :: '-' :: rest =>
    match Text.cutAt '=' rest with
    | some (name, value) => long (String.ofList name) (some (String.ofList value))
    | none => long (String.ofList rest) none
  | '-' :: c :: rest => short (c :: rest)
  | _ => plain text

end Word

/-- What a run of short options does: sets the flag for verbosity, or asks for the version. -/
def shortOptions (atStart : Bool) : List Char → Draft → Option (Draft ⊕ Unit)
  | [], draft => some (.inl draft)
  | c :: rest, draft =>
    if c = 'v' then
      match draft.setFlag "verbose" with
      | some draft => shortOptions atStart rest draft
      | none => none
    else if c = 'V' && atStart then some (.inr ())
    else none

/-- Reads plain words as paths. -/
def readPaths : List String → Draft → Option Draft
  | [], draft => some draft
  | path :: rest, draft =>
    match draft.setModule path with
    | some draft => readPaths rest draft
    | none => none

/-- Reads the words after a command. -/
def readCommand (verb : Verb) : List String → Draft → Option Draft
  | [], draft => some draft
  | word :: rest, draft =>
    match Word.ofText word with
    | .escape => readPaths rest draft
    | .plain path =>
      match draft.setModule path with
      | some draft => readCommand verb rest draft
      | none => none
    | .short names =>
      match shortOptions false names draft with
      | some (.inl draft) => readCommand verb rest draft
      | _ => none
    | .long name value =>
      match Draft.setter? (some verb) name, value, rest with
      | some set, some value, rest =>
        match set draft value with
        | some draft => readCommand verb rest draft
        | none => none
      | some set, none, next :: rest =>
        match Word.ofText next with
        | .plain value =>
          match set draft value with
          | some draft => readCommand verb rest draft
          | none => none
        | _ => none
      | some _, none, [] => none
      | none, some _, _ => none
      | none, none, rest =>
        match draft.setFlag name with
        | some draft => readCommand verb rest draft
        | none => none

/-- The options of a whole command line: those after the command win. -/
def GeneralOptions.override (before after : GeneralOptions) : GeneralOptions where
  output := after.output.or before.output
  quiet := after.quiet || before.quiet
  verbose := after.verbose || before.verbose
  config := after.config.or before.config

/-- The request of a command with the words after it. -/
def finish (before : Draft) (verb : Verb) (words : List String) : Option Request :=
  match readCommand verb words {} with
  | none => none
  | some after =>
    after.module.map fun module =>
      .command (before.general.override after.general)
        { verb := verb, module := module, catalog := after.catalog, function := after.function }

/-- Reads the words of a command line up to the command, and from there on. -/
def readFrom : List String → Draft → Option Request
  | [], _ => none
  | word :: rest, draft =>
    match Word.ofText word with
    | .escape => none
    | .plain name =>
      match Verb.ofName? name with
      | some verb => finish draft verb rest
      | none => none
    | .short names =>
      match shortOptions true names draft with
      | some (.inl draft) => readFrom rest draft
      | some (.inr ()) => some .version
      | none => none
    | .long name value =>
      match Draft.setter? none name, value, rest with
      | some set, some value, rest =>
        match set draft value with
        | some draft => readFrom rest draft
        | none => none
      | some set, none, next :: rest =>
        match Word.ofText next with
        | .plain value =>
          match set draft value with
          | some draft => readFrom rest draft
          | none => none
        | _ => none
      | some _, none, [] => none
      | none, some _, _ => none
      | none, none, rest =>
        if name = "version" then some .version
        else
          match draft.setFlag name with
          | some draft => readFrom rest draft
          | none => none

/-- What a command line asks for, unless its words make no request. -/
def Request.ofWords? (words : List String) : Option Request :=
  readFrom words {}

end StackLinker.CommandLine
