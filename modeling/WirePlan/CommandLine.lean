import WirePlan.Plan.Generation
import WirePlan.Plan.Listing

/-!
# The command line

`[--protocol tlv|fixed] [--verbose] FILE...` lists the plan of every file, each behind a line with
the file's name. A file that fails is told on the error stream and the others are still listed; the
exit code then says so. A file whose layout stops at a sum ends the run, with a code of its own. An
option is recognised wherever it first stands, and all other arguments are files.
-/

namespace WirePlan.CommandLine

/-- What is wrong with the arguments. -/
inductive UsageError where
  | missingValue
  | unknownVariant (error : UnknownVariant)
  | noFiles
  deriving DecidableEq, Repr

/-- The text of the error. -/
def UsageError.message : UsageError → String
  | missingValue => "--protocol needs a value"
  | unknownVariant e => "--protocol: " ++ e.message
  | noFiles => "usage: [--protocol tlv|fixed] [--verbose] FILE..."

/-- What the arguments ask for. -/
structure Request where
  verbose : Bool
  variant : Variant
  files : List String
  deriving DecidableEq, Repr

/-- The arguments without the first one that asks for a verbose listing, and whether there was one.
-/
def takeVerbose (args : List String) : Bool × List String :=
  let isFlag (a : String) : Bool := a == "--verbose" || a == "-v"
  (args.any isFlag, args.eraseP isFlag)

/-- The value of the first option that names a family, and the other arguments. -/
def takeVariant : List String → Except UsageError (Option String × List String)
  | [] => .ok (none, [])
  | a :: rest =>
    if a = "--protocol" ∨ a = "-p" then
      match rest with
      | [] => .error .missingValue
      | value :: rest => .ok (some value, rest)
    else
      match takeVariant rest with
      | .ok (value?, rest) => .ok (value?, a :: rest)
      | .error e => .error e

/-- The request that arguments make. -/
def Request.ofArgs (args : List String) : Except UsageError Request := do
  let (verbose, args) := takeVerbose args
  let (value?, files) ← takeVariant args
  let variant ← match value? with
    | none => pure Variant.fixed
    | some text => match Variant.lookup text with
      | .ok v => pure v
      | .error e => .error (.unknownVariant e)
  if files.isEmpty then .error .noFiles
  return { verbose, variant, files }

/-- What a run leaves behind. -/
structure Outcome where
  code : Nat := 0
  output : String := ""
  errors : String := ""
  deriving DecidableEq, Repr

/-- The code of a run that stops at a sum. -/
def stopCode : Nat := 101

/-- The outcome after one more file. An outcome in place of an error ends the run. -/
def Outcome.addFile (o : Outcome) (r : Request) (file : String)
    (contents : Except FileError (List UInt8)) : Except Outcome Outcome :=
  match Plan.ofFileM (m := Stopping) contents { variant := r.variant } with
  | .ok (.ok plan) =>
    .ok { o with output := o.output ++ "# " ++ file ++ "\n" ++ plan.listing r.verbose }
  | .ok (.error e) =>
    .ok { o with code := 1, errors := o.errors ++ file ++ ": " ++ e.message ++ "\n" }
  | .error _ => .error { o with code := stopCode }

/-- The outcome of a request over files with the given contents. -/
def Request.outcome (r : Request) (files : List (String × Except FileError (List UInt8))) :
    Outcome :=
  match files.foldlM (fun o f => o.addFile r f.1 f.2) ({} : Outcome) with
  | .ok o | .error o => o

/-- The outcome of arguments that make no request. -/
def UsageError.outcome (e : UsageError) : Outcome := { code := 1, errors := e.message ++ "\n" }

end WirePlan.CommandLine
