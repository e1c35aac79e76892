import StackLinker.Catalog.Codec
import StackLinker.CommandLine.Arguments
import StackLinker.CommandLine.File
import StackLinker.Config.File
import StackLinker.Document.Codec
import StackLinker.Json.Printer
import StackLinker.Linking
import StackLinker.Schema

/-!
# Commands

What a command prints and how it ends, as a function of its arguments and of the files that it
reads.  The configuration comes first, then the module document, then the catalog; the first of
them that cannot be read ends the command.
-/

namespace StackLinker.CommandLine

/-- How a command ends. -/
structure Completion where
  code : Nat
  stdout : String := ""
  stderr : String := ""
deriving DecidableEq, Repr

/-- The program's name and version. -/
def versionLine : String := "modlink 0.1.0\n"

/-- What is printed for a command line that makes no request. -/
def usageLine : String :=
  "usage: modlink [--output text|json] [--quiet] [--verbose] [--config FILE] " ++
    "link|template|env|validate MODULE\n"

/-- The configuration file that is read when none is named. -/
def defaultConfigPath : String := "modlink.toml"

/-- The configuration in a file. -/
def readConfig (files : Files) (path : String) : Except String Config := do
  let source ← (files path).read.mapError fun reason =>
    "error reading config " ++ Text.quoted path ++ ": " ++ reason
  let complaint := "error parsing config " ++ Text.quoted path ++ ": "
  match Config.File.parse? source with
  | none => throw (complaint ++ "TOML parse error")
  | some config =>
    match config.fault? with
    | some fault => throw (complaint ++ fault.message)
    | none => return config

/-- The configuration of a command: from the named file, else from the default file if there is
one, else the default settings. -/
def configOf (files : Files) (options : GeneralOptions) : Except String Config :=
  match options.config with
  | some path => readConfig files path
  | none =>
    if (files defaultConfigPath).isFile then readConfig files defaultConfigPath else .ok {}

/-- The catalog of a command. -/
def catalogOf (files : Files) : Option String → Except String Catalog
  | none => .ok .permissive
  | some path =>
    ((readData .typeTable TypeTable.ofJson files path).mapError fun message =>
      "invalid type catalog " ++ Text.quoted path ++ ": " ++ message).map TypeTable.catalog

/-! ## Failures -/

/-- The output format in force. -/
def GeneralOptions.format (options : GeneralOptions) : OutputFormat :=
  options.output.getD .text

/-- Ends a command with an error message. -/
def fail (options : GeneralOptions) (message : String) : Completion where
  code := 1
  stderr :=
    if options.quiet then ""
    else
      match options.format with
      | .text => message ++ "\n"
      | .json => (Json.object [("error", .string message)]).compact ++ "\n"

/-- Ends a command with diagnostics.  As JSON they are printed even when the command is quiet. -/
def failWith (options : GeneralOptions) (errors : List Diagnostic) : Completion where
  code := 1
  stderr :=
    match options.format with
    | .json => (Json.object [("errors", .array (errors.map Diagnostic.toJson))]).pretty ++ "\n"
    | .text =>
      if options.quiet then ""
      else
        String.join (errors.map fun e => "error[" ++ e.kind.name ++ "]: " ++ e.display ++ "\n") ++
          (LinkFailure.diagnostics errors).message ++ "\n"

/-! ## Commands -/

/-- The linked module of a command, or how the command ends without one. -/
def linkModule (files : Files) (options : GeneralOptions) (config : Config) (command : Command) :
    Except Completion LinkedModule := do
  let document ←
    (readData .document ModuleDocument.ofJson files command.module).mapError (fail options)
  let catalog ← (catalogOf files command.catalog).mapError (fail options)
  let graph ← (ModuleGraph.ofDocument config document).mapError (failWith options)
  (graph.link config catalog).mapError fun failure =>
    match failure with
    | .structural e => fail options e.message
    | .diagnostics errors => failWith options errors

/-- An environment as lines of text. -/
def environmentText (environment : FunctionEnvironment) : String :=
  "[" ++ environment.function ++ "]\n" ++
    String.join (environment.bindings.map fun (name, value) =>
      name ++ "=" ++ value.asString.getD value.toJson.compact ++ "\n")

/-- Prints the environments of a linked module. -/
def printEnvironments (options : GeneralOptions) (linked : LinkedModule)
    (function : Option String) : Completion :=
  let selected :=
    match function with
    | none => some linked.environments
    | some name => (FunctionEnvironment.find? name linked.environments).map fun found => [found]
  match selected with
  | none =>
    fail options (Text.quoted (function.getD "") ++ " is not a function of module " ++
      Text.quoted linked.graph.name)
  | some environments =>
    { code := 0
      stdout :=
        match options.format with
        | .json => (LinkedModule.environmentsJson environments).pretty ++ "\n"
        | .text => String.join (environments.map environmentText) }

/-- Checks a document against the schema. -/
def validate (files : Files) (options : GeneralOptions) (path : String) : Completion :=
  match readTree .data files path with
  | .error message => fail options message
  | .ok json =>
    if Schema.isDocument json.merged then
      { code := 0
        stdout :=
          if options.quiet then ""
          else
            match options.format with
            | .text => "valid\n"
            | .json => "\x7b\"valid\": true\x7d\n" }
    else
      { code := 1
        stderr :=
          match options.format with
          | .text => if options.quiet then "" else "invalid module document\n"
          | .json => "\x7b\"valid\": false\x7d\n" }

/-- Carries out a command. -/
def perform (files : Files) (options : GeneralOptions) (command : Command) : Completion :=
  match configOf files options with
  | .error message => fail options message
  | .ok config =>
    if command.verb = .validate then validate files options command.module
    else
      match linkModule files options config command with
      | .error completion => completion
      | .ok linked =>
        match command.verb with
        | .template => { code := 0, stdout := (linked.template config).pretty ++ "\n" }
        | .env => printEnvironments options linked command.function
        | _ => { code := 0, stdout := linked.toJson.pretty ++ "\n" }

/-- Runs the program on a list of words. -/
def run (words : List String) (files : Files) : Completion :=
  match Request.ofWords? words with
  | none => { code := 2, stderr := usageLine }
  | some .version => { code := 0, stdout := versionLine }
  | some (.command options command) => perform files options command

/-- The paths that the program may read for a list of words. -/
def pathsOf (words : List String) : List String :=
  match Request.ofWords? words with
  | some (.command options command) =>
    defaultConfigPath :: command.module :: (options.config.toList ++ command.catalog.toList)
  | _ => []

end StackLinker.CommandLine
