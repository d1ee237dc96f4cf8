import WirePlan.Condition
import WirePlan.Schema.ContainerKind
import WirePlan.Options

/-!
# Declarations

What the records of a schema declare, before it is checked. Fields and prerequisites may stand in a
list by themselves or by the name of a template; after expansion (`Expanded`) all stand by
themselves. Formats are still tags.
-/

namespace WirePlan

/-- A declared field; `P` is what its prerequisites are. -/
structure DeclaredField (P : Type) where
  name : String
  /-- The tag on the wire. -/
  tag? : Option UInt8 := none
  mandatory : Bool := false
  format : String
  /-- The sibling that counts the elements of an array. -/
  sizeField? : Option String := none
  structType? : Option String := none
  /-- The format of string lengths. -/
  lengthPrefix? : Option String := none
  prerequisites : List P := []
  /-- The template that the field is a copy of. -/
  origin? : Option String := none
  deriving DecidableEq, Repr

/-- A prerequisite, or the name of a template for one. -/
inductive PrerequisiteUse where
  | inline (prerequisite : Prerequisite)
  | shared (name : String)
  deriving DecidableEq, Repr

/-- A field, or the name of a template for one. -/
inductive FieldUse where
  | inline (field : DeclaredField PrerequisiteUse)
  /-- The prerequisites, where they are given, stand in place of those of the template. -/
  | shared (name : String) (prerequisites? : Option (List PrerequisiteUse))
  deriving DecidableEq, Repr

/-- A field whose prerequisites all stand by themselves. -/
abbrev ExpandedField := DeclaredField Prerequisite

/-- A declared message; `F` is what its fields are. -/
structure DeclaredMessage (F : Type) where
  name : String
  /-- The service, where it is not that of the schema. -/
  service? : Option String
  id : UInt32
  containers : List (ContainerKind × List F)
  deriving DecidableEq, Repr

/-- A declared struct; `F` is what its members are. -/
structure DeclaredStruct (F : Type) where
  name : String
  members : List F
  deriving DecidableEq, Repr

/-- A template under its name. -/
structure Shared (α : Type) where
  name : String
  value : α
  deriving DecidableEq, Repr

/-- The names that a schema gives once. -/
structure SchemaNames where
  service? : Option String := none
  client? : Option String := none
  messageIds? : Option String := none
  deriving DecidableEq, Repr

/-- The name of a kind. -/
def SchemaNames.get? (n : SchemaNames) : Metadata → Option String
  | .service => n.service?
  | .client => n.client?
  | .messageIds => n.messageIds?

/-- The names with one of them set. -/
def SchemaNames.set (n : SchemaNames) (kind : Metadata) (name : String) : SchemaNames :=
  match kind with
  | .service => { n with service? := some name }
  | .client => { n with client? := some name }
  | .messageIds => { n with messageIds? := some name }

/-- The declarations of a schema, in the order of its records. -/
structure Declarations where
  names : SchemaNames := {}
  messages : List (DeclaredMessage FieldUse) := []
  structs : List (DeclaredStruct FieldUse) := []
  fragments : List (Shared (DeclaredField PrerequisiteUse)) := []
  prerequisites : List (Shared Prerequisite) := []
  deriving DecidableEq, Repr

/-- The declarations of a schema with every template use replaced by a copy. -/
structure Expanded where
  names : SchemaNames := {}
  messages : List (DeclaredMessage ExpandedField) := []
  structs : List (DeclaredStruct ExpandedField) := []
  deriving DecidableEq, Repr

end WirePlan
