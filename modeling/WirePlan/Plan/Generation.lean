import WirePlan.Plan.Basic
import WirePlan.Schema.Checking
import WirePlan.Schema.Expansion
import WirePlan.Schema.Reading
import WirePlan.Text.Utf8

/-!
# From a source to its plan

The whole way: the declarations of a source, their templates put in place, the checked schema, its
plan. A file is read as UTF-8 and must be well-formed.
-/

namespace WirePlan

/-- The checked schema of a source. -/
def Schema.ofSource (source : String) (options : Options) : Except SchemaError Schema := do
  let declarations ← Declarations.ofSource source
  Schema.ofExpanded (← declarations.expand) options

/-- The plan of expanded declarations, where sums wrap. -/
def Plan.ofExpanded (e : Expanded) (options : Options) : Except SchemaError Plan := do
  ofSchema (← Schema.ofExpanded e options)

section Build

variable {m : Type → Type} [Monad m] [Arithmetic m]

/-- The plan of a source. -/
def Plan.ofSourceM (source : String) (options : Options) : m (Except SchemaError Plan) :=
  match Schema.ofSource source options with
  | .ok s => ofSchemaM s
  | .error e => return .error e

/-- The plan of a file with the given bytes, or of one that could not be read. -/
def Plan.ofFileM (contents : Except FileError (List UInt8)) (options : Options) :
    m (Except SchemaError Plan) :=
  match contents with
  | .error e => return .error (.file e)
  | .ok bytes =>
    match Text.utf8Text? bytes with
    | some source => ofSourceM source options
    | none => return .error (.file .notText)

end Build

/-- The plan of a source, where sums wrap. -/
def Plan.ofSource (source : String) (options : Options) : Except SchemaError Plan :=
  Id.run (ofSourceM source options)

theorem Plan.ofSource_eq (source : String) (options : Options) :
    ofSource source options = Schema.ofSource source options >>= ofSchema := by
  unfold ofSource ofSourceM
  cases Schema.ofSource source options <;> rfl

end WirePlan
