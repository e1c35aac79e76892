import StackLinker.CommandLine.Run

/-!
# The program

Reads the files that the command line names, runs the command, and prints what it answers.
-/

namespace StackLinker.Main

open CommandLine

/-- Whether a failure has the given number, which some of them bear with the opposite sign. -/
def hasCode (number code : UInt32) : Bool := code == number || code == 0 - number

/-- What a failure to read a path says about it. -/
def contentOfFailure : IO.Error → FileContent
  | .inappropriateType _ code _ => if hasCode 21 code then .directory else .notADirectory
  | .invalidArgument _ code _ => if hasCode 36 code then .nameTooLong else .missing
  | .permissionDenied .. => .denied
  | .userError _ => .notText
  | _ => .missing

/-- Looks at a path. -/
def lookAt (path : String) : IO FileContent := do
  try
    return .text (← IO.FS.readFile path)
  catch e =>
    return contentOfFailure e

end StackLinker.Main

open StackLinker CommandLine in
/-- The entry point. -/
def main (words : List String) : IO UInt32 := do
  let contents ← (pathsOf words).mapM fun path => return (path, ← Main.lookAt path)
  let completion := run words fun path => (Fields.find? path contents).getD .missing
  IO.print completion.stdout
  IO.eprint completion.stderr
  return completion.code.toUInt32
