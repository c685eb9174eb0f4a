import Atomspace.CommandLine
/-!
# The program

Reads arguments, environment and files, and prints what the command line answers.
-/

namespace Atomspace.CommandLine

/-- Reads a file from the disk. -/
def readFile (path : String) : IO (Except FileError ByteArray) := do
  try
    return .ok (← IO.FS.readBinFile path)
  catch error =>
    return .error (match error with
      | .noFileOrDirectory .. => .missing
      | .inappropriateType .. => .isDirectory
      | error => .other (toString error))

/-- The variables of the environment that matter. -/
def readEnvironment : IO (List (String × String)) := do
  let names := ["COGSPACE_LOG_LEVEL", "COGSPACE_MAX_DEPTH", "COGSPACE_FORGET_TRIGGER"]
  let values ← names.mapM fun name => do return (← IO.getEnv name).map fun value => (name, value)
  return values.filterMap fun value => value

/-- A number for agents without a seed. -/
def readChance : IO UInt64 := do
  return UInt64.ofNat ((← IO.rand 0 2147483647) + (← IO.monoNanosNow))

end Atomspace.CommandLine

open Atomspace.CommandLine in
/-- Answers the arguments. -/
def main (args : List String) : IO UInt32 := do
  let home := (← IO.getEnv "HOME").getD "."
  let env ← readEnvironment
  let outcome ← respond readFile (readFile (home ++ "/" ++ configFile)) (List.lookup · env)
    (← readChance) args
  (← IO.getStdout).putStr outcome.output
  (← IO.getStderr).putStr outcome.errors
  return UInt32.ofNat outcome.code
