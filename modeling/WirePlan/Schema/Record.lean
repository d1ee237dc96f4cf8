import WirePlan.Schema.Error

/-!
# Records

A schema is an array of records, each an object with a `type`, or an array that starts with the type
and gives the values of the other keys in a fixed order. Reading a record checks the shape of every
value and the presence of the keys that must be there; what the values mean is not looked at here.

The members of an object are read in key order, each list within them in full, and the first fault
found counts. Keys that a record does not know are passed over. A key may be left out or `null`
unless it must be there.
-/

namespace WirePlan

/-- A number, or a text that may hold one. -/
inductive NumberText where
  | number (value : Nat)
  | text (text : String)
  deriving DecidableEq, Repr

/-- A truth value, or a text that may say one. -/
inductive FlagText where
  | bool (value : Bool)
  | text (text : String)
  deriving DecidableEq, Repr

/-- An operand as it is written. -/
inductive OperandText where
  | bool (value : Bool)
  | int (value : Int64)
  | text (text : String)
  deriving DecidableEq, Repr

/-- A prerequisite, or the name of a template in its place. -/
structure PrerequisiteRecord where
  field? : Option String := none
  operation? : Option String := none
  value? : Option OperandText := none
  commonRef? : Option String := none
  deriving DecidableEq, Repr

/-- A field, a template of one, or the name of a template in its place. -/
structure FieldRecord where
  name? : Option String := none
  id? : Option NumberText := none
  mandatory? : Option FlagText := none
  format? : Option String := none
  sizeField? : Option String := none
  structType? : Option String := none
  lengthPrefix? : Option String := none
  prerequisites? : Option (List PrerequisiteRecord) := none
  commonRef? : Option String := none
  deriving DecidableEq, Repr

/-- A message as far as it is read: which container lists were given, `none` for a `null`. -/
structure MessageRecord where
  name? : Option String := none
  service? : Option String := none
  id? : Option NumberText := none
  lists : List (ContainerKind × Option (List FieldRecord)) := []
  deriving DecidableEq, Repr

/-- A struct as far as it is read. -/
structure StructRecord where
  name? : Option String := none
  contents? : Option (List FieldRecord) := none
  deriving DecidableEq, Repr

/-! ## Single values -/

/-- Reads a value of some shape. -/
abbrev ValueReader (α : Type) := Json → Except RecordFault α

namespace ValueReader

/-- A text. -/
def text : ValueReader String
  | .string s => .ok s
  | v => .error (.wrongShape v.shape .text)

/-- A value that may be `null`. -/
def optional {α : Type} (read : ValueReader α) : ValueReader (Option α)
  | .null => .ok none
  | v => do return some (← read v)

/-- A list of values. -/
def list {α : Type} (read : ValueReader α) : ValueReader (List α)
  | .array items => items.mapM read
  | v => .error (.wrongShape v.shape .list)

/-- A number, or a text in its place. -/
def numberText : ValueReader NumberText
  | .number (.integer i) => if 0 ≤ i then .ok (.number i.toNat) else .error (.noReading .number)
  | .string s => .ok (.text s)
  | _ => .error (.noReading .number)

/-- A truth value, or a text in its place. -/
def flagText : ValueReader FlagText
  | .bool b => .ok (.bool b)
  | .string s => .ok (.text s)
  | _ => .error (.noReading .flag)

/-- An operand: an integer must fit a signed 64-bit word. -/
def operandText : ValueReader OperandText
  | .bool b => .ok (.bool b)
  | .number (.integer i) =>
    if i < (Int64.size / 2 : Nat) then .ok (.int (.ofInt i)) else .error (.noReading .operand)
  | .string s => .ok (.text s)
  | _ => .error (.noReading .operand)

/-- The value of a key that must be there. -/
def required {α : Type} (key : String) : Option α → Except RecordFault α
  | some a => .ok a
  | none => .error (.missingKey key)

end ValueReader

/-! ## Groups of values -/

/-- How the values of a record are read. -/
structure RecordReader (α : Type) where
  form : RecordForm
  /-- The keys in the order in which the array form gives their values. -/
  keys : List String
  /-- The record before any value is read. -/
  empty : α
  /-- The record with the value of a key read; a key that is unknown changes nothing. -/
  put : α → String → Json → Except RecordFault α

/-- The record that the members of an object give. -/
def RecordReader.ofMembers {α : Type} (r : RecordReader α) (members : List (String × Json)) :
    Except RecordFault α :=
  members.foldlM (fun a m => r.put a m.1 m.2) r.empty

/-- The record that the items of an array give: one for each key. -/
def RecordReader.ofItems {α : Type} (r : RecordReader α) (items : List Json) :
    Except RecordFault α := do
  let a ← (r.keys.zip items).foldlM (fun a m => r.put a m.1 m.2) r.empty
  if items.length < r.keys.length then .error (.tooFewItems items.length r.form r.keys.length)
  else if r.keys.length < items.length then .error (.tooManyItems items.length r.keys.length)
  else return a

/-- The record that a value gives. -/
def RecordReader.read {α : Type} (r : RecordReader α) : ValueReader α
  | .object members => r.ofMembers members
  | .array items => r.ofItems items
  | v => .error (.wrongShape v.shape (.form r.form))

open ValueReader

/-- A prerequisite. -/
def PrerequisiteRecord.reader : RecordReader PrerequisiteRecord where
  form := .prerequisite
  keys := ["field", "operation", "value", "common-ref"]
  empty := {}
  put r key value :=
    match key with
    | "field" => do return { r with field? := ← optional text value }
    | "operation" => do return { r with operation? := ← optional text value }
    | "value" => do return { r with value? := ← optional operandText value }
    | "common-ref" => do return { r with commonRef? := ← optional text value }
    | _ => .ok r

/-- A field. -/
def FieldRecord.reader : RecordReader FieldRecord where
  form := .field
  keys := ["name", "id", "mandatory", "format", "array-size-field", "struct-type",
    "size-prefix-format", "prerequisites", "common-ref"]
  empty := {}
  put r key value :=
    match key with
    | "name" => do return { r with name? := ← optional text value }
    | "id" => do return { r with id? := ← optional numberText value }
    | "mandatory" => do return { r with mandatory? := ← optional flagText value }
    | "format" => do return { r with format? := ← optional text value }
    | "array-size-field" => do return { r with sizeField? := ← optional text value }
    | "struct-type" => do return { r with structType? := ← optional text value }
    | "size-prefix-format" => do return { r with lengthPrefix? := ← optional text value }
    | "prerequisites" => do
      return { r with prerequisites? := ← optional (list PrerequisiteRecord.reader.read) value }
    | "common-ref" => do return { r with commonRef? := ← optional text value }
    | _ => .ok r

/-- The kind of container that a key gives the fields of; all but `set` have other names. -/
def containerOfKey? : String → Option ContainerKind
  | "request" | "query" | "input" => some .request
  | "set" => some .set
  | "response" | "output" => some .response
  | "notification" | "indication" => some .notification
  | _ => none

/-- A message. A container may be given under one of its names only. -/
def MessageRecord.reader : RecordReader MessageRecord where
  form := .message
  keys := ["name", "service", "id", "request", "set", "response", "notification"]
  empty := {}
  put r key value :=
    match key with
    | "name" => do return { r with name? := some (← text value) }
    | "service" => do return { r with service? := ← optional text value }
    | "id" => do return { r with id? := ← optional numberText value }
    | _ =>
      match containerOfKey? key with
      | some kind =>
        if r.lists.any (·.1 = kind) then .error (.repeatedKey kind.name)
        else do
          let fields ← optional (list FieldRecord.reader.read) value
          return { r with lists := r.lists ++ [(kind, fields)] }
      | none => .ok r

/-- A struct. -/
def StructRecord.reader : RecordReader StructRecord where
  form := .struct
  keys := ["name", "contents"]
  empty := {}
  put r key value :=
    match key with
    | "name" => do return { r with name? := some (← text value) }
    | "contents" => do return { r with contents? := some (← list FieldRecord.reader.read value) }
    | _ => .ok r

/-- A record that gives a name only. -/
def nameReader : RecordReader (Option String) where
  form := .named
  keys := ["name"]
  empty := none
  put r key value :=
    match key with
    | "name" => do return some (← text value)
    | _ => .ok r

/-! ## Whole records -/

/-- A record of a schema. -/
inductive Record where
  | metadata (kind : Metadata) (name : String)
  | message (name : String) (record : MessageRecord)
  | struct (name : String) (contents : List FieldRecord)
  | fragment (record : FieldRecord)
  | sharedPrerequisite (record : PrerequisiteRecord)
  | unknown (type : String)
  deriving DecidableEq, Repr

/-- The values of a record, its type apart. -/
inductive RecordBody where
  | members (members : List (String × Json))
  | items (items : List Json)

/-- The record that a body gives. -/
def RecordReader.ofBody {α : Type} (r : RecordReader α) : RecordBody → Except RecordFault α
  | .members m => r.ofMembers m
  | .items i => r.ofItems i

namespace Record

/-- The record of a type. A type that nobody knows is kept, except in the array form, which has no
place for values of an unknown type and no key to find the type by. -/
def ofBody (type : String) (body : RecordBody) : Except RecordFault Record := do
  match type with
  | "Service" => return .metadata .service (← required "name" (← nameReader.ofBody body))
  | "Client" => return .metadata .client (← required "name" (← nameReader.ofBody body))
  | "Message-ID-Enum" => return .metadata .messageIds (← required "name" (← nameReader.ofBody body))
  | "Message" =>
    let r ← MessageRecord.reader.ofBody body
    return .message (← required "name" r.name?) r
  | "Struct" =>
    let r ← StructRecord.reader.ofBody body
    return .struct (← required "name" r.name?) (← required "contents" r.contents?)
  | "CommonFragment-TLV" => return .fragment (← FieldRecord.reader.ofBody body)
  | "CommonFragment-Prerequisite" =>
    return .sharedPrerequisite (← PrerequisiteRecord.reader.ofBody body)
  | _ =>
    match body with
    | .members _ => return .unknown type
    | .items [] => return .unknown ""
    | .items items => .error (.tooManyItems items.length 0)

/-- The type of a record. -/
def type : ValueReader String
  | .string t => .ok t
  | v => .error (.wrongShape v.shape .recordType)

/-- The record that a value of the schema's array gives. -/
def ofJson : ValueReader Record
  | .object members => do
    ofBody (← type (← required "type" (Keyed.find? members "type"))) (.members members)
  | .array [] => .error (.missingKey "type")
  | .array (t :: items) => do ofBody (← type t) (.items items)
  | v => .error (.wrongShape v.shape .record)

end Record

end WirePlan
