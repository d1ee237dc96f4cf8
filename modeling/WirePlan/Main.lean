import WirePlan.CommandLine

/-!
# The program

Reads the files that the command line names and writes what the run leaves behind.
-/

namespace WirePlan

/-- The bytes of a file. -/
def readFile (path : String) : IO (Except FileError (List UInt8)) := do
  try
    return .ok (← IO.FS.readBinFile path).toList
  catch
    | .noFileOrDirectory .. => return .error .notFound
    | e => return .error (.other (toString e))

/-- The outcome of a run with the given arguments. -/
def runWith (args : List String) : IO CommandLine.Outcome := do
  match CommandLine.Request.ofArgs args with
  | .error e => return e.outcome
  | .ok r => return r.outcome (← r.files.mapM fun path => do return (path, ← readFile path))

end WirePlan

/-- Lists the plans of the files that the arguments name. -/
def main (args : List String) : IO UInt32 := do
  let outcome ← WirePlan.runWith args
  IO.print outcome.output
  IO.eprint outcome.errors
  return .ofNat outcome.code
