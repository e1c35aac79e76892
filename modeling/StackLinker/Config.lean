import StackLinker.Text

/-!
# Linker configuration

The naming conventions of a link run: which names belong to the provider, how deferred names are
marked, how names are joined, and how environment variables are called.
-/

namespace StackLinker

/-- The settings of a link run. -/
structure Config where
  /-- Namespaces of the provider.  Names in them are never looked up. -/
  intrinsicMarkers : List String := ["AWS::"]
  /-- Marks names that survive resolution and are finalized later; empty for no mark. -/
  preserveMarker : String := "@"
  /-- Stands between the parts of a full name. -/
  separator : String := "::"
  /-- The scope entry that stands for every function. -/
  wildcardScope : String := "all"
  /-- The entity type whose variables use the secret marker. -/
  secretType : String := "Secret"
  /-- Starts the name of a secret variable. -/
  secretEnvMarker : String := "SEC_"
  /-- Starts the name of any other variable. -/
  plainEnvMarker : String := "STR_"
  /-- Stands between the items of a list in a variable. -/
  listDelimiter : String := ","
  /-- Starts the names of arguments that resolution adds to a substitution. -/
  syntheticMarker : String := "P"
deriving DecidableEq, Repr, Inhabited

namespace Config

/-- Whether a name lies in a namespace of the provider. -/
def isIntrinsic (config : Config) (key : String) : Bool :=
  config.intrinsicMarkers.any fun marker => !marker.isEmpty && Text.startsWith marker key

/-- The bare name behind the preserve marker. -/
def stripPreserve? (config : Config) (key : String) : Option String :=
  if config.preserveMarker.isEmpty then none else Text.afterMarker? config.preserveMarker key

/-- Whether a name is never looked up and never holds its entity back. -/
def isExempt (config : Config) (key : String) : Bool :=
  config.isIntrinsic key || (config.stripPreserve? key).isSome

/-- Why a configuration cannot be used. -/
inductive Fault where
  | emptySeparator
  | emptyWildcard
  | equalEnvMarkers
deriving DecidableEq, Repr

/-- The text of a fault. -/
def Fault.message : Fault → String
  | emptySeparator => "separator must not be empty"
  | emptyWildcard => "wildcard_scope must not be empty"
  | equalEnvMarkers => "secret_env_prefix and plain_env_prefix must differ"

/-- The first fault of a configuration file's settings. -/
def fault? (config : Config) : Option Fault :=
  if config.separator.isEmpty then some .emptySeparator
  else if config.wildcardScope.isEmpty then some .emptyWildcard
  else if config.secretEnvMarker = config.plainEnvMarker then some .equalEnvMarkers
  else none

end Config

end StackLinker
