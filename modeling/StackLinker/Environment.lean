import StackLinker.Diagnostic
import StackLinker.Form
import StackLinker.ModuleGraph

/-!
# Function environments

The scope of an entity lists the functions that see it as an environment variable.  Wildcard
entries are first replaced by all functions; then each function gets a variable for every entity
in whose scope it is.
-/

namespace StackLinker

/-- The environment variables of one function. -/
structure FunctionEnvironment where
  function : String
  bindings : Fields Value := []
deriving DecidableEq, Repr, Inhabited

namespace FunctionEnvironment

/-- The environment of a function. -/
def find? (function : String) : List FunctionEnvironment → Option FunctionEnvironment
  | [] => none
  | environment :: rest =>
    if environment.function = function then some environment else find? function rest

/-- The variables with their wire forms. -/
def toJson (environment : FunctionEnvironment) : Json :=
  .object (environment.bindings.map fun (name, value) => (name, value.toJson))

end FunctionEnvironment

namespace Entity

/-! ## Scopes -/

/-- The functions that a scope entry stands for.  An entry that is neither the wildcard nor a
function stands for none. -/
def scopeEntry (config : Config) (functions : List String) (entry : String) : List String :=
  if entry = config.wildcardScope then functions
  else if functions.contains entry then [entry]
  else []

/-- Whether a scope entry stands for nothing. -/
def isUnknownScope (config : Config) (functions : List String) (entry : String) : Bool :=
  entry != config.wildcardScope && !functions.contains entry

/-- The entity with each function of its scope listed once, in order of first appearance. -/
def expandScope (config : Config) (functions : List String) (entity : Entity) : Entity :=
  { entity with scope := (entity.scope.flatMap (scopeEntry config functions)).eraseDups }

/-- The diagnostics for the entries of a scope that stand for nothing. -/
def scopeDiagnostics (config : Config) (functions : List String) (entity : Entity) :
    List Diagnostic :=
  (entity.scope.filter (isUnknownScope config functions)).map (.unknownScope entity.fullName)

/-! ## Variables -/

/-- A character of a variable name: letters in upper case and digits, anything else a low line. -/
def envChar (c : Char) : Char :=
  if c.isAlphanum then c.toUpper else '_'

/-- The name of the variable for an entity. -/
def envName (config : Config) (entity : Entity) : String :=
  let marker :=
    if entity.typeName = config.secretType then config.secretEnvMarker else config.plainEnvMarker
  let name := Text.replaceAll config.separator "_" entity.fullName
  marker ++ String.ofList (name.toList.map envChar)

/-- The value of a variable: the text of a scalar, the joined items of a list, and any other value
as it is. -/
def envValue (config : Config) : Value → Value
  | .scalar s => .string s.text
  | .list items => .joinItems config.listDelimiter (.list items)
  | other => other

/-- Adds the variable for an entity to the environment of each function in its scope. -/
def bindInto (config : Config) (environments : List FunctionEnvironment) (entity : Entity) :
    List FunctionEnvironment :=
  environments.map fun environment =>
    if entity.scope.contains environment.function then
      { environment with
        bindings := environment.bindings.insert (entity.envName config)
          (envValue config entity.reference) }
    else environment

end Entity

namespace ModuleGraph

/-- The names of the functions of a module. -/
def functionNames (graph : ModuleGraph) : List String :=
  graph.functions.map (·.fullName)

/-- Replaces scope entries by the functions that they stand for. -/
def expandScopes (config : Config) (graph : ModuleGraph) : ModuleGraph × List Diagnostic :=
  let functions := graph.functionNames
  ({ graph with entities := graph.entities.map (Entity.expandScope config functions) },
    graph.entities.flatMap (Entity.scopeDiagnostics config functions))

/-- The environment of every function, for expanded scopes. -/
def environments (config : Config) (graph : ModuleGraph) : List FunctionEnvironment :=
  graph.entities.foldl (Entity.bindInto config)
    (graph.functionNames.map fun function => { function := function })

/-- Expands the scopes and builds the environments, unless a scope entry stands for nothing. -/
def propagate (config : Config) (graph : ModuleGraph) :
    ModuleGraph × Except (List Diagnostic) (List FunctionEnvironment) :=
  let expanded := graph.expandScopes config
  (expanded.1,
    if expanded.2.isEmpty then .ok (expanded.1.environments config) else .error expanded.2)

end ModuleGraph

end StackLinker
