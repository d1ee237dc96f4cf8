import WirePlan.Format

/-!
# Options of a run

Two families of protocols share the schema language. In one, every field of a container travels
under a header of its own, a tag of one byte and a length of two; in the other a container is one
buffer without headers. The family decides the header, the sections a schema must have, and the
format of string lengths where neither the field nor the options say it.
-/

namespace WirePlan

/-- The families of protocols. -/
inductive Variant where
  /-- Every field under a header of tag and length. -/
  | tlv
  /-- Fields without headers. -/
  | fixed
  deriving DecidableEq, Repr

/-- The sections that hold one name each. -/
inductive Metadata where
  | service | client | messageIds
  deriving DecidableEq, Repr

/-- The record type of a section. -/
def Metadata.name : Metadata → String
  | service => "Service"
  | client => "Client"
  | messageIds => "Message-ID-Enum"

namespace Variant

/-- The name of the family. -/
def name : Variant → String
  | tlv => "tlv"
  | fixed => "fixed"

/-- The bytes before every value of a container. -/
def headerSize : Variant → Nat
  | tlv => 3
  | fixed => 0

/-- The sections that a schema must have, in the order in which they are missed. -/
def requiredMetadata : Variant → List Metadata
  | tlv => [.service, .client, .messageIds]
  | fixed => [.service]

/-- The format of string lengths where nothing else is said. -/
def defaultLengthPrefix : Variant → IntFormat
  | tlv => .u8
  | fixed => .u32

end Variant

/-- A text that names no family, in lower case. -/
structure UnknownVariant where
  text : String
  deriving DecidableEq, Repr

/-- The text of the error. -/
def UnknownVariant.message (e : UnknownVariant) : String :=
  "unknown protocol variant '" ++ e.text ++ "' (expected tlv or fixed)"

/-- The family that a text names in any case of the ASCII letters. -/
def Variant.lookup (text : String) : Except UnknownVariant Variant :=
  let lower := String.ofList (text.toList.map Char.toLower)
  if lower = tlv.name then .ok .tlv
  else if lower = fixed.name then .ok .fixed
  else .error ⟨lower⟩

/-- The options of a run. -/
structure Options where
  variant : Variant := .fixed
  /-- The format of string lengths for fields that say none. -/
  lengthPrefix? : Option IntFormat := none
  deriving DecidableEq, Repr

/-- The format of string lengths for fields that say none. -/
def Options.lengthPrefix (o : Options) : IntFormat :=
  o.lengthPrefix?.getD o.variant.defaultLengthPrefix

end WirePlan
