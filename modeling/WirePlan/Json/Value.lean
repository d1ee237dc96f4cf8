import WirePlan.Keyed
import WirePlan.Number.Shortest

/-!
# JSON values

A number is an integer when it is written without fraction and exponent and fits a 64-bit word, with
or without sign; `-0` and all other numbers are binary64. The members of an object are kept in key
order, one value for each key.
-/

namespace WirePlan

/-- A number of a JSON text. -/
inductive Json.Number where
  | integer (value : Int)
  | real (value : Binary64)
  deriving DecidableEq, Repr

/-- The value of a JSON text. -/
inductive Json where
  | null
  | bool (value : Bool)
  | number (value : Json.Number)
  | string (text : String)
  | array (items : List Json)
  | object (members : List (String × Json))

namespace Json

/-- Real numbers are written positionally while the point stands at most four places left of the
digits and at most sixteen places into them. -/
def realStyle : DecimalStyle := ⟨-4, 16⟩

/-- The shortest text of a real number. -/
def realText (x : Binary64) : String :=
  .ofList ((if x.negative then ['-'] else []) ++ realStyle.write x.shortest)

end Json

end WirePlan
