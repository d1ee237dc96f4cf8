import WirePlan.Codec.Error
import WirePlan.Layout.Basic
import WirePlan.Value.Basic

/-!
# What is known while fields go by

A gated field is on the wire when all its prerequisites hold of the values of its siblings. A
prerequisite on a value that is not there does not hold; one that compares something other than
numbers is an error.

The offsets of later fields need the presence, counts, lengths and sizes of those before. What
is known of them (`Known`) starts out as nothing and grows with every field.
-/

namespace WirePlan

/-- The value that a prerequisite reads. -/
def Prerequisite.subject? (p : Prerequisite) (values : Fields) : Option Value :=
  p.members.foldl (fun v? member => (v?.bind Value.fields?).bind fun m => m.find? member)
    (values.find? p.sibling)

/-- The prerequisite holds. -/
def Prerequisite.holds (p : Prerequisite) (values : Fields) : Except CodecError Bool :=
  match p.subject? values with
  | none => .ok false
  | some v =>
    match v.integer?, p.value.number? with
    | some lhs, some rhs => .ok (p.operation.holds lhs rhs)
    | _, _ => .error (.prerequisite p)

/-- All prerequisites hold; the first one that does not decides. -/
def Prerequisite.allHold : List Prerequisite → Fields → Except CodecError Bool
  | [], _ => .ok true
  | p :: rest, values =>
    match p.holds values with
    | .ok true => Prerequisite.allHold rest values
    | .ok false => .ok false
    | .error e => .error e

namespace Known

/-- Nothing is known and nothing is absent. -/
def nothing : Known where
  isPresent _ := true
  count? _ := none
  stringLength? _ := none
  consumed? _ := none

/-- A field is absent. -/
def without (known : Known) (field : String) : Known :=
  { known with isPresent := fun g => g ≠ field && known.isPresent g }

/-- A field has a value that takes so many bytes. The length of a string is what follows its length
prefix on the wire, whatever the text that was read from it. -/
def record (known : Known) (f : Field) (value : Value) (bytes : Nat) : Known where
  isPresent := known.isPresent
  count? g := if g = f.name then value.natural?.or (known.count? g) else known.count? g
  stringLength? g :=
    if g = f.name ∧ f.format = .string then some (bytes - f.lengthFormat.size)
    else known.stringLength? g
  consumed? g := if g = f.name then some bytes else known.consumed? g

end Known

end WirePlan
