import WirePlan.Condition
import WirePlan.Options
import WirePlan.Schema.ContainerKind

/-!
# Checked schemas

The messages and structs of one service with every field typed: its format is known, an array names
the sibling that counts its elements, a struct-shaped field names its struct.
-/

namespace WirePlan

/-- A typed field. -/
structure Field where
  name : String
  /-- The tag on the wire. -/
  tag? : Option UInt8 := none
  mandatory : Bool := false
  format : Format
  /-- The sibling that counts the elements of an array. -/
  sizeField? : Option String := none
  /-- The struct of the field or of its elements. -/
  structType? : Option String := none
  /-- The field is on the wire only if all of these hold. -/
  prerequisites : List Prerequisite := []
  /-- The template that the field is a copy of. -/
  origin? : Option String := none
  /-- The format of string lengths. -/
  lengthPrefix? : Option IntFormat := none
  deriving DecidableEq, Repr

namespace Field

/-- The field may be absent from the wire. -/
def isConditional (f : Field) : Bool := !f.prerequisites.isEmpty

/-- The siblings that must be known before the field: what counts its elements, then what its
prerequisites read. -/
def dependencies (f : Field) : List String :=
  f.sizeField?.toList ++ f.prerequisites.map Prerequisite.sibling

/-- The format of string lengths, for fields that were made without one too. -/
def lengthFormat (f : Field) : IntFormat := f.lengthPrefix?.getD .u32

end Field

/-- How fields use a struct. -/
structure StructUsage where
  /-- As a single value. -/
  embedded : Bool := false
  /-- As the element of an array. -/
  arrayMember : Bool := false
  deriving DecidableEq, Repr

/-- No field uses the struct. -/
def StructUsage.isUnused (u : StructUsage) : Bool := !u.embedded && !u.arrayMember

/-- A struct with its members in declaration order. -/
structure Struct where
  name : String
  members : List Field
  usage : StructUsage := {}
  deriving DecidableEq, Repr

/-- A container with its fields in declaration order. -/
structure Container where
  kind : ContainerKind
  fields : List Field
  deriving DecidableEq, Repr

/-- A message. -/
structure Message where
  name : String
  service : String
  id : UInt32
  containers : List Container
  deriving DecidableEq, Repr

/-- The container of a kind. -/
def Message.container? (m : Message) (kind : ContainerKind) : Option Container :=
  m.containers.find? (·.kind = kind)

/-- The schema of one service. -/
structure Schema where
  service : String
  variant : Variant
  client? : Option String := none
  messageIds? : Option String := none
  messages : List Message
  structs : List Struct
  deriving DecidableEq, Repr

/-- The struct with a name. -/
def Schema.struct? (s : Schema) (name : String) : Option Struct :=
  s.structs.find? (·.name = name)

/-- The message with a name. -/
def Schema.message? (s : Schema) (name : String) : Option Message :=
  s.messages.find? (·.name = name)

end WirePlan
