import WirePlan.Condition
import WirePlan.Format
import WirePlan.Text.Numeral

/-!
# What can go wrong in the codec

Every failure of encoding or decoding is a `CodecError`; its wording is `CodecError.message`.
-/

namespace WirePlan

/-- What a field wants its value to be. -/
inductive Demand where
  | element (element : Element)
  | struct
  | array
  /-- Structs inside an array. -/
  | structElements
  deriving DecidableEq, Repr

/-- The text of a demand. -/
def Demand.text : Demand → String
  | element e => e.tag
  | struct => "a struct"
  | array => "an array"
  | structElements => "struct elements"

/-- A length or count that does not fit. -/
inductive LengthFault where
  /-- An array has another number of items than its size field says. -/
  | itemCount (field : String) (items : Nat) (sizeField : String) (count : Nat)
  /-- A string is longer than its length format can tell. -/
  | stringTooLong (field : String) (bytes : Nat) (lengthFormat : IntFormat)
  /-- The value under a header is longer than the header can tell. -/
  | valueTooLong (field : String) (bytes : Nat)
  /-- The header tells another length than the value has. -/
  | headerLength (field : String) (declared taken : Nat)
  /-- A string is longer than what is left of the bytes. -/
  | stringPastEnd (bytes left : Nat)
  /-- An element stands too far behind for its slot. -/
  | slotTooFar
  deriving DecidableEq, Repr

/-- The text of the fault. -/
def LengthFault.message : LengthFault → String
  | itemCount f items s count =>
    "'" ++ f ++ "' has " ++ toString items ++ " elements, '" ++ s ++ "' says " ++ toString count
  | stringTooLong f n p =>
    "'" ++ f ++ "' holds " ++ toString n ++ " bytes, " ++ p.tag ++ " prefix allows " ++
      toString p.greatest
  | valueTooLong f n => "TLV '" ++ f ++ "' value of " ++ toString n ++ " bytes"
  | headerLength f declared taken =>
    "TLV '" ++ f ++ "' declares " ++ toString declared ++ " bytes, value took " ++ toString taken
  | stringPastEnd n left => "string of " ++ toString n ++ " bytes with " ++ toString left ++ " left"
  | slotTooFar => "indirect element offset exceeds u32"

/-- A failure of encoding or decoding. -/
inductive CodecError where
  /-- The bytes end inside a value. -/
  | endOfBytes
  | missingValue (field : String)
  | typeMismatch (field : String) (demand : Demand)
  | lengthMismatch (fault : LengthFault)
  /-- A field does not stand where the plan says; `none` where the plan cannot tell. -/
  | layoutMismatch (field : String) (expected : Option Nat) (actual : Nat)
  | tagMismatch (field : String) (expected found : UInt8)
  | unknownStruct (name : String)
  /-- A prerequisite compares what is no number. -/
  | prerequisite (prerequisite : Prerequisite)
  /-- Structs nest deeper than the plan has structs. -/
  | nestingTooDeep
  deriving DecidableEq, Repr

namespace CodecError

/-- The name under which the end of a list is told in errors. -/
def endName : String := "<end>"

/-- A place that may be unknown. -/
def placeText : Option Nat → String
  | some n => "Some(" ++ toString n ++ ")"
  | none => "None"

/-- A tag. -/
def tagText (t : UInt8) : String := "0x" ++ Text.paddedHexadecimal 2 t.toNat

/-- The text of the error. -/
def message : CodecError → String
  | endOfBytes => "IO: failed to fill whole buffer"
  | missingValue f => "Missing value for field '" ++ f ++ "'"
  | typeMismatch f d => "Field '" ++ f ++ "' expects " ++ d.text
  | lengthMismatch l => "Length/count mismatch: " ++ l.message
  | layoutMismatch f expected actual =>
    "Field '" ++ f ++ "' at byte " ++ toString actual ++ ", layout says " ++ placeText expected
  | tagMismatch f expected found =>
    "TLV tag " ++ tagText found ++ " where '" ++ f ++ "' (" ++ tagText expected ++ ") was expected"
  | unknownStruct n => "Unknown struct: " ++ n
  | prerequisite p => "Cannot evaluate prerequisite '" ++ p.text ++ "'"
  | nestingTooDeep => "Structs nest too deep"

end CodecError

end WirePlan
