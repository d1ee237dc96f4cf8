import WirePlan.Json.Value
import WirePlan.Options
import WirePlan.Schema.ContainerKind
import WirePlan.Source.Blanking
import WirePlan.Text.Quoted

/-!
# What can be wrong with a schema

Every failure between the text of a schema and its plan is a `SchemaError`: the cause, and the place
in the schema where it was found. The wording of an error is a function of the two
(`SchemaError.message`).
-/

namespace WirePlan

/-! ## Places -/

/-- A place in a schema. -/
inductive Place where
  /-- The record with a number, counted from one. -/
  | record (number : Nat)
  | message (name : String)
  | container (message : String) (kind : ContainerKind)
  | struct (name : String)
  /-- A field template. -/
  | fragment (name : String)
  /-- A prerequisite template. -/
  | sharedPrerequisite (name : String)
  /-- A field of a list. -/
  | field (list : Place) (name : String)
  /-- A use of a template in a list. -/
  | use (list : Place) (fragment : String)
  /-- The length format of a field. -/
  | lengthPrefix (field : Place)
  | service (name : String)
  | schema
  | options
  | variant (variant : Variant)
  /-- A place that the caller names. -/
  | named (text : String)
  deriving DecidableEq, Repr

/-- The text of a place. -/
def Place.text : Place → String
  | record n => "record #" ++ toString n
  | message m => "message '" ++ m ++ "'"
  | container m k => "message '" ++ m ++ "' " ++ k.name
  | struct s => "struct '" ++ s ++ "'"
  | fragment r => "common fragment '" ++ r ++ "'"
  | sharedPrerequisite r => "common prerequisite '" ++ r ++ "'"
  | field p f => p.text ++ " / field '" ++ f ++ "'"
  | use p r => p.text ++ " / common '" ++ r ++ "'"
  | lengthPrefix p => p.text ++ " / size-prefix-format"
  | service s => "service '" ++ s ++ "'"
  | schema => "schema"
  | options => "string prefix option"
  | variant v => v.name ++ " protocol schema"
  | named t => t

/-! ## Texts that cannot be read -/

/-- Why a source holds no records. -/
inductive SyntaxError where
  /-- A string or block comment is never closed. -/
  | unclosed (position : Source.Position)
  /-- The text is no JSON array; the line of the offending character. -/
  | malformed (line : Nat)
  deriving DecidableEq, Repr

/-- The text of the error. -/
def SyntaxError.message : SyntaxError → String
  | unclosed p =>
    "string or comment never closed at line " ++ toString p.line ++ " column " ++ toString p.column
  | malformed line => "not a JSON array at line " ++ toString line

/-- Why a file holds no text. -/
inductive FileError where
  | notFound
  | notText
  /-- Any other failure, in the words of the system. -/
  | other (text : String)
  deriving DecidableEq, Repr

/-- The text of the error. -/
def FileError.message : FileError → String
  | notFound => "No such file or directory (os error 2)"
  | notText => "stream did not contain valid UTF-8"
  | other t => t

/-! ## Records with faults -/

/-- What a JSON value looks like from outside. -/
inductive JsonShape where
  | null
  | bool (value : Bool)
  | number (value : Json.Number)
  | string (text : String)
  | array
  | object
  deriving DecidableEq, Repr

/-- The shape of a value. -/
def Json.shape : Json → JsonShape
  | .null => .null
  | .bool b => .bool b
  | .number n => .number n
  | .string s => .string s
  | .array _ => .array
  | .object _ => .object

/-- The text of a shape. -/
def JsonShape.text : JsonShape → String
  | null => "null"
  | bool b => "boolean `" ++ (if b then "true" else "false") ++ "`"
  | number (.integer i) => "integer `" ++ toString i ++ "`"
  | number (.real x) => "floating point `" ++ Json.realText x ++ "`"
  | string s => "string " ++ Text.quote s
  | array => "sequence"
  | object => "map"

/-- The forms of records. -/
inductive RecordForm where
  | named | message | struct | field | prerequisite
  /-- A record of unknown type, which has no keys of its own. -/
  | unknown
  deriving DecidableEq, Repr

/-- The name of the form in errors. -/
def RecordForm.name : RecordForm → String
  | named => "struct NamedRecord"
  | message => "struct MessageRecord"
  | struct => "struct StructRecord"
  | field => "struct FieldRecord"
  | prerequisite => "struct PrerequisiteRecord"
  | unknown => "unit"

/-- What a record wants in some place. -/
inductive Wanted where
  | text
  | list
  | recordType
  | record
  | form (form : RecordForm)
  deriving DecidableEq, Repr

/-- The text of what is wanted. -/
def Wanted.message : Wanted → String
  | text => "a string"
  | list => "a sequence"
  | recordType => "variant identifier"
  | record => "internally tagged enum Record"
  | form f => f.name

/-- Values that may be written in several ways. -/
inductive Written where
  /-- A number, or a text that holds one. -/
  | number
  /-- A truth value, or a text that says it. -/
  | flag
  /-- An operand. -/
  | operand
  deriving DecidableEq, Repr

/-- The name of the choice in errors. -/
def Written.name : Written → String
  | number => "Number"
  | flag => "Flag"
  | operand => "Scalar"

/-- What is wrong with a record. -/
inductive RecordFault where
  /-- A value of another shape is wanted. -/
  | wrongShape (found : JsonShape) (wanted : Wanted)
  /-- A record written as an array has too few items. -/
  | tooFewItems (given : Nat) (form : RecordForm) (arity : Nat)
  /-- A record written as an array has too many items. -/
  | tooManyItems (given : Nat) (arity : Nat)
  /-- A key that must be there is not. -/
  | missingKey (key : String)
  /-- One key under two of its names. -/
  | repeatedKey (key : String)
  /-- The value is written in none of the ways it may be. -/
  | noReading (written : Written)
  | unknownType (type : String)
  /-- A value that must be given is not. -/
  | missing (key : String)
  | notANumber (key text : String)
  | idOutOfRange (id : Nat)
  | tagOutOfRange (tag : Nat)
  | notAFlag
  | unknownOperation (text : String)
  | missingOperand
  /-- A field of a tagged container has no tag. -/
  | untagged
  /-- Indirect elements cannot stand behind tagged fields. -/
  | indirectUnderTags
  /-- A struct member stands under conditions. -/
  | gatedMember
  deriving DecidableEq, Repr

/-- A number of elements, in words. -/
def elementCount (n : Nat) : String :=
  if n = 1 then "1 element" else toString n ++ " elements"

/-- The text of the fault. -/
def RecordFault.message : RecordFault → String
  | wrongShape s w => "invalid type: " ++ s.text ++ ", expected " ++ w.message
  | tooFewItems n f k =>
    "invalid length " ++ toString n ++ ", expected " ++ f.name ++ " with " ++ elementCount k
  | tooManyItems n k =>
    "invalid length " ++ toString n ++ ", expected " ++ elementCount k ++ " in sequence"
  | missingKey k => "missing field `" ++ k ++ "`"
  | repeatedKey k => "duplicate field `" ++ k ++ "`"
  | noReading w => "data did not match any variant of untagged enum " ++ w.name
  | unknownType t => "unknown record type '" ++ t ++ "'"
  | missing k => "missing '" ++ k ++ "'"
  | notANumber k t => "'" ++ k ++ "' is not a number: '" ++ t ++ "'"
  | idOutOfRange n => "id " ++ toString n ++ " out of range"
  | tagOutOfRange n => "tag " ++ toString n ++ " out of range"
  | notAFlag => "'mandatory' must be yes/no"
  | unknownOperation t => "unknown operation '" ++ t ++ "'"
  | missingOperand => "prerequisite without 'value'"
  | untagged => "TLV field without 'id' tag"
  | indirectUnderTags => "ref-struct-array needs the fixed protocol variant"
  | gatedMember => "struct members cannot carry prerequisites"

/-! ## All errors -/

/-- What may be declared once only. -/
inductive DeclaredKind where
  | metadata (metadata : Metadata)
  | fragment | sharedPrerequisite | struct | message | field | tag
  deriving DecidableEq, Repr

/-- The name of the kind in errors. -/
def DeclaredKind.name : DeclaredKind → String
  | metadata m => m.name
  | fragment => "common fragment"
  | sharedPrerequisite => "common prerequisite"
  | struct => "struct"
  | message => "message"
  | field => "field"
  | tag => "TLV tag"

/-- What a schema must have. -/
inductive RequiredPart where
  | metadata (metadata : Metadata)
  /-- A container of a message. -/
  | container
  deriving DecidableEq, Repr

/-- The name of the part in errors. -/
def RequiredPart.name : RequiredPart → String
  | metadata m => m.name
  | container => "container (request, set, response or notification)"

/-- A failure between the text of a schema and its plan. -/
inductive SchemaError where
  | unreadable (error : SyntaxError)
  | invalidRecord (place : Place) (fault : RecordFault)
  | unknownFormat (tag : String) (place : Place)
  /-- A template is used that nobody declares. -/
  | fragmentNotFound (name : String) (place : Place)
  /-- An array has no field that counts its elements, or names one that cannot. -/
  | missingSizeField (field : String) (sizeField? : Option String) (place : Place)
  /-- An array is laid out before the field that counts its elements. -/
  | unresolvedSizeField (field sizeField : String) (place : Place)
  /-- A struct-shaped field names no struct, or one that nobody declares. -/
  | missingStructType (field : String) (structType? : Option String) (place : Place)
  /-- A prerequisite reads a field that is not there. -/
  | unknownPrerequisiteField (field path : String) (place : Place)
  /-- Fields that wait for one another; the last one is the first one again. -/
  | cyclicDependency (cycle : List String) (place : Place)
  | recursiveStruct (name : String)
  | missingPart (part : RequiredPart) (place : Place)
  | duplicate (kind : DeclaredKind) (name : String) (place : Place)
  | file (error : FileError)
  deriving DecidableEq, Repr

/-- A place, as errors end with it. -/
def Place.suffix (p : Place) : String := " (" ++ p.text ++ ")"

/-- The text of the error. -/
def SchemaError.message : SchemaError → String
  | unreadable e => "Parse error: " ++ e.message
  | invalidRecord p f => "Invalid record" ++ p.suffix ++ ": " ++ f.message
  | unknownFormat t p => "Unknown format '" ++ t ++ "'" ++ p.suffix
  | fragmentNotFound n p => "Common reference '" ++ n ++ "' not found" ++ p.suffix
  | missingSizeField f s p =>
    "Missing array size field for '" ++ f ++ "'" ++ p.suffix ++
      match s with
      | some s => ": '" ++ s ++ "' is not an integer sibling"
      | none => ""
  | unresolvedSizeField f s p =>
    "Size field '" ++ s ++ "' of '" ++ f ++ "' has no layout yet" ++ p.suffix
  | missingStructType f s p =>
    "Missing struct type for '" ++ f ++ "'" ++ p.suffix ++
      match s with
      | some s => ": '" ++ s ++ "' is not declared"
      | none => ""
  | unknownPrerequisiteField f q p =>
    "Prerequisite of '" ++ f ++ "' refers to unknown field '" ++ q ++ "'" ++ p.suffix
  | cyclicDependency c p => "Cyclic field dependency " ++ " -> ".intercalate c ++ p.suffix
  | recursiveStruct n => "Struct '" ++ n ++ "' embeds itself"
  | missingPart s p => "Missing required schema section: " ++ s.name ++ p.suffix
  | duplicate k n p => "Duplicate " ++ k.name ++ " '" ++ n ++ "'" ++ p.suffix
  | file e => "IO: " ++ e.message

end WirePlan
