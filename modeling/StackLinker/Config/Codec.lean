import StackLinker.Config
import StackLinker.Decode

/-!
# Reading and writing configurations

Every setting may be left out and then has its default.
-/

namespace StackLinker.Config

/-- The settings in the order of their declaration. -/
def layout : Decode.Layout where
  name := "LinkerConfig"
  fields := [("intrinsic_prefixes", true), ("preserve_prefix", true), ("separator", true),
    ("wildcard_scope", true), ("secret_type", true), ("secret_env_prefix", true),
    ("plain_env_prefix", true), ("list_delimiter", true), ("synthetic_arg_prefix", true)]

/-- Reads one setting. -/
def set (field : String) (json : Json) (config : Config) : Decode.Result Config :=
  match field with
  | "intrinsic_prefixes" =>
    (Decode.list Decode.string json).map fun x => { config with intrinsicMarkers := x }
  | "preserve_prefix" => (Decode.string json).map fun x => { config with preserveMarker := x }
  | "separator" => (Decode.string json).map fun x => { config with separator := x }
  | "wildcard_scope" => (Decode.string json).map fun x => { config with wildcardScope := x }
  | "secret_type" => (Decode.string json).map fun x => { config with secretType := x }
  | "secret_env_prefix" => (Decode.string json).map fun x => { config with secretEnvMarker := x }
  | "plain_env_prefix" => (Decode.string json).map fun x => { config with plainEnvMarker := x }
  | "list_delimiter" => (Decode.string json).map fun x => { config with listDelimiter := x }
  | "synthetic_arg_prefix" => (Decode.string json).map fun x => { config with syntheticMarker := x }
  | _ => .ok config

/-- Reads a configuration. -/
def ofJson (json : Json) : Decode.Result Config :=
  layout.read set {} json

/-- Writes a configuration with all its settings. -/
def toJson (config : Config) : Json :=
  .object [
    ("intrinsic_prefixes", .texts config.intrinsicMarkers),
    ("preserve_prefix", .string config.preserveMarker),
    ("separator", .string config.separator),
    ("wildcard_scope", .string config.wildcardScope),
    ("secret_type", .string config.secretType),
    ("secret_env_prefix", .string config.secretEnvMarker),
    ("plain_env_prefix", .string config.plainEnvMarker),
    ("list_delimiter", .string config.listDelimiter),
    ("synthetic_arg_prefix", .string config.syntheticMarker)]

end StackLinker.Config
