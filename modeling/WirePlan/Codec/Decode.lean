import WirePlan.Codec.Basic
import WirePlan.Codec.Scalar

/-!
# Decoding

Each field is read where its offset, evaluated against what is decoded already, says it stands. The
elements of an indirect array are read at the places that its slots tell, after which reading goes
on behind the slots. What a decode covers is the furthest byte read or laid out.
-/

namespace WirePlan

namespace Codec

/-- Decodes the struct that starts at a place: its values, its size, and the cursor behind what was
read. -/
abbrev StructDecoder :=
  StructLayout → (start : Nat) → Cursor → Except CodecError (Fields × Nat × Cursor)

/-- The struct at the cursor, which then stands behind its inline bytes. -/
def decodeInline (inner : StructDecoder) (layout : StructLayout) (cur : Cursor) :
    Except CodecError (Value × Cursor) := do
  let (values, size, after) ← inner layout cur.position cur
  return (.struct values, after.seek (cur.position + size))

/-- Structs one after the other at the cursor; `done` holds those read already, the last one first.
-/
def decodeStructs (inner : StructDecoder) (layout : StructLayout) :
    (count : Nat) → Cursor → (done : List Value) → Except CodecError (List Value × Cursor)
  | 0, cur, done => .ok (done.reverse, cur)
  | count + 1, cur, done =>
    match decodeInline inner layout cur with
    | .ok (v, cur) => decodeStructs inner layout count cur (v :: done)
    | .error e => .error e

/-- The numbers in slots at a position; `done` holds those read already, the last one first. -/
def readSlots (order : ByteOrder) (data : Array UInt8) :
    (count : Nat) → (position : Nat) → (done : List Nat) → Except CodecError (List Nat × Nat)
  | 0, position, done => .ok (done.reverse, position)
  | count + 1, position, done =>
    match readNumber order data position Format.slotSize with
    | .ok n => readSlots order data count (position + Format.slotSize) (n :: done)
    | .error e => .error e

/-- The structs at the places that slots tell; `done` holds those read already, the last one first.
-/
def decodePointees (inner : StructDecoder) (layout : StructLayout) :
    (places : List Nat) → Cursor → (done : List Value) → Except CodecError (List Value × Cursor)
  | [], cur, done => .ok (done.reverse, cur)
  | place :: places, cur, done =>
    match inner layout place cur with
    | .ok (values, _, cur) => decodePointees inner layout places cur (.struct values :: done)
    | .error e => .error e

/-- So many items of an array at the cursor. -/
def decodeItems (c : Codec) (data : Array UInt8) (inner : StructDecoder) (f : PlacedField)
    (count : Nat) (cur : Cursor) : Except CodecError (List Value × Cursor) :=
  match f.format with
  | .array e => e.decodeMany c.order data f.lengthFormat count cur []
  | .structArray => do decodeStructs inner (← c.structOf f) count cur []
  | _ => do
    let layout ← c.structOf f
    let (places, position) ← readSlots c.order data count cur.position []
    let (items, after) ← decodePointees inner layout places (cur.seek position) []
    return (items, after.seek position)

/-- The value of a field at the cursor, which then stands behind its inline bytes. -/
def decodeValue (c : Codec) (data : Array UInt8) (inner : StructDecoder) (f : PlacedField)
    (siblings : Fields) (cur : Cursor) : Except CodecError (Value × Cursor) :=
  match f.format.scalar? with
  | some e => e.decode c.order data f.lengthFormat cur
  | none =>
    if f.format.isArray then do
      let count ← countOf f siblings
      let (items, after) ← decodeItems c data inner f count cur
      return (.array items, after)
    else do decodeInline inner (← c.structOf f) cur

/-- The length in the header before a position, where the field has one. -/
def decodeHeader (c : Codec) (data : Array UInt8) (f : PlacedField) (position : Nat) :
    Except CodecError (Option Nat) :=
  if f.header = 0 then .ok none
  else do
    let start := position - f.header
    let found : UInt8 := .ofNat (← readNumber c.order data start 1)
    let expected := f.tag?.getD 0
    if found = expected then return some (← readNumber c.order data (start + 1) 2)
    else .error (.tagMismatch f.name expected found)

/-- A value takes as many bytes as its header tells. -/
def checkHeaderLength (f : PlacedField) (declared? : Option Nat) (taken : Nat) :
    Except CodecError Unit :=
  match declared? with
  | none => .ok ()
  | some n =>
    if n = taken then .ok () else .error (.lengthMismatch (.headerLength f.name n taken))

/-- The fields of a list that starts at `base`: the values, the size of the list and the cursor.
`values` and `known` know of the fields before. -/
def decodeFields (c : Codec) (data : Array UInt8) (inner : StructDecoder) (base : Nat)
    (endOffset : Offset) :
    (values : Fields) → (known : Known) → Cursor → List PlacedField →
      Except CodecError (Fields × Nat × Cursor)
  | values, known, cur, [] =>
    match endOffset.evaluate? known with
    | none => .error (.layoutMismatch CodecError.endName none cur.position)
    | some size => .ok (values, size, cur.cover (base + size))
  | values, known, cur, f :: rest => do
    if ← Prerequisite.allHold f.prerequisites values then
      match f.offset.evaluate? known with
      | none => .error (.layoutMismatch f.name none cur.position)
      | some offset =>
        let start := base + offset
        let declared? ← decodeHeader c data f start
        let (value, after) ← decodeValue c data inner f values (cur.seek start)
        let taken := after.position - start
        checkHeaderLength f declared? taken
        decodeFields c data inner base endOffset (values.insert f.name value)
          (known.record f.toField value taken) (after.cover after.position) rest
    else decodeFields c data inner base endOffset values (known.without f.name) cur rest

/-- A struct; inside it structs nest less deep than `depth`. -/
def decodeStruct (c : Codec) (data : Array UInt8) : (depth : Nat) → StructDecoder
  | 0, _, _, _ => .error .nestingTooDeep
  | depth + 1, layout, start, cur =>
    decodeFields c data (decodeStruct c data depth) start layout.endOffset [] .nothing cur
      layout.members

/-- A container at the head of bytes: its values, its size, and the cursor behind what was read. -/
def read (c : Codec) (container : ContainerLayout) (bytes : List UInt8) :
    Except CodecError (Fields × Nat × Cursor) :=
  decodeFields c bytes.toArray (decodeStruct c bytes.toArray c.nesting) 0 container.endOffset []
    .nothing {} container.fields

/-- The values of a container at the head of bytes, and the number of bytes covered. -/
def decode (c : Codec) (container : ContainerLayout) (bytes : List UInt8) :
    Except CodecError (Fields × Nat) := do
  let (values, size, cur) ← c.read container bytes
  return (values, max cur.covered size)

end Codec

end WirePlan
