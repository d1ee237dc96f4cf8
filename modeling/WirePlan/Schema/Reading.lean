import WirePlan.Json.Reader
import WirePlan.Schema.Declaration
import WirePlan.Schema.Record

/-!
# From a source to its declarations

A source is blanked and read as a JSON array (`Source.records`), and its items are read as records
and declared one after the other (`Declarations.ofRecords`). The first record with a fault ends the
reading. A source of nothing but blanks declares nothing.

The values of a field are looked at in a fixed order: name, format, tag, mandatory, prerequisites.
-/

namespace WirePlan

/-- The number that is meant; texts hold decimal digits, or hexadecimal ones behind a marker. -/
def NumberText.value (n : NumberText) (key : String) (place : Place) : Except SchemaError Nat :=
  match n with
  | .number n => .ok n
  | .text t =>
    let cs := Text.trimChars t.toList
    let value? := match Text.afterHexMarker? cs with
      | some digits => Text.unsigned? 16 UInt64.size digits
      | none => Text.unsigned? 10 UInt64.size cs
    match value? with
    | some n => .ok n
    | none => .error (.invalidRecord place (.notANumber key (.ofList cs)))

/-- The truth value that is meant. -/
def FlagText.value? : FlagText → Option Bool
  | .bool b => some b
  | .text t =>
    if t = "yes" ∨ t = "true" then some true
    else if t = "no" ∨ t = "false" then some false
    else none

/-- The literal that is meant. -/
def OperandText.literal : OperandText → Literal
  | .bool b => .bool b
  | .int i => .int i
  | .text t => .ofText t

/-- The value, or a fault of the record at a place. -/
def Place.require {α : Type} (place : Place) (fault : RecordFault) :
    Option α → Except SchemaError α
  | some a => .ok a
  | none => .error (.invalidRecord place fault)

/-- The prerequisite that a record declares. -/
def PrerequisiteRecord.declared (r : PrerequisiteRecord) (place : Place) :
    Except SchemaError Prerequisite := do
  let field ← place.require (.missing "field") r.field?
  let symbol ← place.require (.missing "operation") r.operation?
  let operation ← place.require (.unknownOperation symbol) (Operator.ofText? symbol)
  let operand ← place.require .missingOperand r.value?
  return ⟨field, operation, operand.literal⟩

/-- What stands in a list of prerequisites: a template is named where no field is. -/
def PrerequisiteRecord.use (r : PrerequisiteRecord) (place : Place) :
    Except SchemaError PrerequisiteUse :=
  match r.field?, r.commonRef? with
  | none, some name => .ok (.shared name)
  | _, _ => do return .inline (← r.declared place)

/-- The tag that is meant, if any. -/
def FieldRecord.tag? (r : FieldRecord) (place : Place) : Except SchemaError (Option UInt8) :=
  match r.id? with
  | none => .ok none
  | some id => do
    let n ← id.value "id" place
    if n < UInt8.size then return some (.ofNat n)
    else .error (.invalidRecord place (.tagOutOfRange n))

/-- Whether the field is mandatory; it is not where nothing is said. -/
def FieldRecord.isMandatory (r : FieldRecord) (place : Place) : Except SchemaError Bool :=
  match r.mandatory? with
  | none => .ok false
  | some f => place.require .notAFlag f.value?

/-- The field that a record of a list declares. -/
def FieldRecord.declared (r : FieldRecord) (list : Place) :
    Except SchemaError (DeclaredField PrerequisiteUse) := do
  let name ← list.require (.missing "name") r.name?
  let place := Place.field list name
  let format ← place.require (.missing "format") r.format?
  let tag? ← r.tag? place
  let mandatory ← r.isMandatory place
  let prerequisites ← (r.prerequisites?.getD []).mapM fun p => p.use place
  return {
    name, tag?, mandatory, format, prerequisites
    sizeField? := r.sizeField?, structType? := r.structType?, lengthPrefix? := r.lengthPrefix? }

/-- What stands in a list of fields: a template is named where no format is. -/
def FieldRecord.use (r : FieldRecord) (list : Place) : Except SchemaError FieldUse :=
  match r.format?, r.commonRef? with
  | none, some name =>
    match r.prerequisites? with
    | none => .ok (.shared name none)
    | some ps => do return .shared name (some (← ps.mapM fun p => p.use list))
  | _, _ => do return .inline (← r.declared list)

/-- The fields of a container, if it is given. -/
def MessageRecord.list? (r : MessageRecord) (kind : ContainerKind) : Option (List FieldRecord) :=
  (r.lists.find? (·.1 = kind)).bind (·.2)

/-- The container of a kind that a record declares, if it does. -/
def MessageRecord.container? (r : MessageRecord) (name : String) (kind : ContainerKind) :
    Except SchemaError (Option (ContainerKind × List FieldUse)) :=
  match r.list? kind with
  | none => .ok none
  | some fields => do
    return some (kind, ← fields.mapM fun f => f.use (.container name kind))

/-- The message that a record declares. -/
def MessageRecord.declared (r : MessageRecord) (name : String) :
    Except SchemaError (DeclaredMessage FieldUse) := do
  let place := Place.message name
  let text ← place.require (.missing "id") r.id?
  let n ← text.value "id" place
  if n < UInt32.size then
    let containers ← ContainerKind.all.mapM (r.container? name)
    return ⟨name, r.service?, .ofNat n, containers.filterMap id⟩
  else .error (.invalidRecord place (.idOutOfRange n))

/-- The values of the array that characters make, none of them read yet. -/
def Source.recordsOfChars (cs : List Char) : Except SchemaError (List Json) :=
  match blankChars cs with
  | .error position => .error (.unreadable (.unclosed position))
  | .ok text =>
    if Text.isBlankText text then .ok []
    else
      match Json.readArray text with
      | .error rest =>
        .error (.unreadable (.malformed (lineAfter (text.take (text.length - rest.length)))))
      | .ok items => .ok items

/-- The values of the array that a source is, none of them read yet. -/
def Source.records (source : String) : Except SchemaError (List Json) :=
  recordsOfChars source.toList

namespace Declarations

/-- The declarations with those of one more record, which stands at a place. -/
def add (d : Declarations) (place : Place) : Record → Except SchemaError Declarations
  | .metadata kind name =>
    match d.names.get? kind with
    | none => .ok { d with names := d.names.set kind name }
    | some _ => .error (.duplicate (.metadata kind) name place)
  | .message name r => do return { d with messages := d.messages ++ [← r.declared name] }
  | .struct name contents => do
    let members ← contents.mapM fun f => f.use (.struct name)
    return { d with structs := d.structs ++ [⟨name, members⟩] }
  | .fragment r => do
    let name ← place.require (.missing "common-ref") r.commonRef?
    return { d with fragments := d.fragments ++ [⟨name, ← r.declared (.fragment name)⟩] }
  | .sharedPrerequisite r => do
    let name ← place.require (.missing "common-ref") r.commonRef?
    let p ← r.declared (.sharedPrerequisite name)
    return { d with prerequisites := d.prerequisites ++ [⟨name, p⟩] }
  | .unknown type => .error (.invalidRecord place (.unknownType type))

/-- The declarations with those of the items of an array from a number on. -/
def addItems (d : Declarations) (number : Nat) : List Json → Except SchemaError Declarations
  | [] => .ok d
  | item :: items =>
    match Record.ofJson item with
    | .error fault => .error (.invalidRecord (.record number) fault)
    | .ok r => do (← d.add (.record number) r).addItems (number + 1) items

/-- The declarations that the values of an array make. -/
def ofRecords (records : List Json) : Except SchemaError Declarations :=
  ({} : Declarations).addItems 1 records

/-- The declarations that a source makes. -/
def ofSource (source : String) : Except SchemaError Declarations := do
  ofRecords (← Source.records source)

end Declarations

end WirePlan
