import WirePlan.Codec.ByteOrder
import WirePlan.Codec.Error
import WirePlan.Codec.Presence
import WirePlan.Plan.Basic

/-!
# Codecs

A codec encodes and decodes the containers of one plan in one byte order.
-/

namespace WirePlan

/-- A plan and a byte order. -/
structure Codec where
  plan : Plan
  order : ByteOrder
  deriving DecidableEq, Repr

namespace Codec

/-- The layout of the struct that a field names. -/
def structOf (c : Codec) (f : PlacedField) : Except CodecError StructLayout :=
  match f.structType? with
  | none => .error (.unknownStruct f.name)
  | some t =>
    match c.plan.struct? t with
    | some layout => .ok layout
    | none => .error (.unknownStruct t)

/-- The name of the field that counts the elements of an array. -/
def sizeField (f : PlacedField) : String := f.sizeField?.getD ""

/-- The number of elements that the siblings of an array tell. -/
def countOf (f : PlacedField) (siblings : Fields) : Except CodecError Nat :=
  match (siblings.find? (sizeField f)).bind Value.natural? with
  | some n => .ok n
  | none => .error (.missingValue (sizeField f))

/-- Structs nest no deeper: a plan has no struct that embeds itself. -/
def nesting (c : Codec) : Nat := c.plan.structs.length

/-- The bytes of a header: a tag of one byte and a length of two. -/
def headerSize : Nat := 3

end Codec

end WirePlan
