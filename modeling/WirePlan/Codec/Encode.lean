import WirePlan.Codec.Basic
import WirePlan.Codec.Scalar

/-!
# Encoding

A list of fields is encoded in wire order. Every field that is on the wire must start where the plan
says, and the list must end there; otherwise the plan and the encoder disagree, which is an error.

The elements of an indirect array stand behind everything else, and the array itself holds a slot
for each with the element's place, counted from the container's start. So what encoding produces is
a list of pieces, bytes and slots (`Piece`); the elements of the slots follow level by level, in the
order of their slots, which is the order in which they would leave a queue. As slots and elements
come in the same order, filling the slots is one pass from left to right (`Piece.fill`).
-/

namespace WirePlan

/-- An element that stands behind the container. -/
structure Pointee where
  layout : StructLayout
  values : Fields
  /-- Structs may nest as deep inside it. -/
  depth : Nat

/-- A part of an encoding. -/
inductive Piece where
  | byte (byte : UInt8)
  /-- The place of an element that stands further back. -/
  | slot (element : Pointee)

namespace Piece

/-- The number of bytes that pieces take. -/
def size : List Piece → Nat
  | [] => 0
  | .byte _ :: rest => 1 + size rest
  | .slot _ :: rest => Format.slotSize + size rest

/-- Bytes as pieces. -/
def ofBytes (bytes : List UInt8) : List Piece := bytes.map byte

/-- The elements of the slots, in order. -/
def pointees : List Piece → List Pointee
  | [] => []
  | .byte _ :: rest => pointees rest
  | .slot p :: rest => p :: pointees rest

/-- The bytes of pieces, the slots filled with places in order. -/
def fill (order : ByteOrder) : (places : List Nat) → List Piece → List UInt8
  | _, [] => []
  | places, .byte b :: rest => b :: fill order places rest
  | place :: places, .slot _ :: rest => order.bytes Format.slotSize place ++ fill order places rest
  | [], .slot _ :: rest => order.bytes Format.slotSize 0 ++ fill order [] rest

end Piece

namespace Codec

/-- Encodes the values of a struct that starts at a place. -/
abbrev StructEncoder :=
  StructLayout → (values : Fields) → (start : Nat) → Except CodecError (List Piece)

/-- Structs one after the other from a place on. -/
def encodeStructs (inner : StructEncoder) (field : String) (layout : StructLayout) :
    (start : Nat) → List Value → Except CodecError (List Piece)
  | _, [] => .ok []
  | start, item :: rest =>
    match item.fields? with
    | none => .error (.typeMismatch field .structElements)
    | some m => do
      let pieces ← inner layout m start
      return pieces ++ (← encodeStructs inner field layout (start + Piece.size pieces) rest)

/-- The slot of an element. -/
def encodeSlot (field : String) (layout : StructLayout) (depth : Nat) (item : Value) :
    Except CodecError Piece :=
  match item.fields? with
  | none => .error (.typeMismatch field .structElements)
  | some m => .ok (.slot ⟨layout, m, depth⟩)

/-- The items of an array are as many as its siblings tell. -/
def requireCount (f : PlacedField) (items : Nat) (siblings : Fields) : Except CodecError Unit := do
  let count ← countOf f siblings
  if count = items then .ok ()
  else .error (.lengthMismatch (.itemCount f.name items (sizeField f) count))

/-- The items of an array that starts at a place. -/
def encodeItems (c : Codec) (inner : StructEncoder) (depth : Nat) (f : PlacedField) (start : Nat)
    (items : List Value) : Except CodecError (List Piece) :=
  match f.format with
  | .array e => do
    let parts ← items.mapM (e.encode c.order f.name f.lengthFormat)
    return Piece.ofBytes parts.flatten
  | .structArray => do encodeStructs inner f.name (← c.structOf f) start items
  | _ => do
    let layout ← c.structOf f
    items.mapM (encodeSlot f.name layout depth)

/-- The value of a field that starts at a place. -/
def encodeValue (c : Codec) (inner : StructEncoder) (depth : Nat) (f : PlacedField)
    (siblings : Fields) (start : Nat) (value : Value) : Except CodecError (List Piece) :=
  match f.format.scalar? with
  | some e => do return Piece.ofBytes (← e.encode c.order f.name f.lengthFormat value)
  | none =>
    if f.format.isArray then
      match value.items? with
      | none => .error (.typeMismatch f.name .array)
      | some items => do
        requireCount f items.length siblings
        encodeItems c inner depth f start items
    else
      match value.fields? with
      | none => .error (.typeMismatch f.name .struct)
      | some m => do inner (← c.structOf f) m start

/-- The header of a value of so many bytes, where the field has one. -/
def encodeHeader (c : Codec) (f : PlacedField) (bytes : Nat) : Except CodecError (List UInt8) :=
  if f.header = 0 then .ok []
  else if bytes < UInt16.size then .ok (f.tag?.getD 0 :: c.order.bytes 2 bytes)
  else .error (.lengthMismatch (.valueTooLong f.name bytes))

/-- The encoder stands where the plan says. -/
def checkPlace (field : String) (expected : Option Nat) (actual : Nat) : Except CodecError Unit :=
  if expected = some actual then .ok () else .error (.layoutMismatch field expected actual)

/-- The fields of a list that starts at `base`, from `place` on; `known` knows of the fields before.
-/
def encodeFields (c : Codec) (inner : StructEncoder) (depth : Nat) (values : Fields) (base : Nat)
    (endOffset : Offset) :
    (place : Nat) → (known : Known) → List PlacedField → Except CodecError (List Piece)
  | place, known, [] => do
    checkPlace CodecError.endName ((endOffset.evaluate? known).map (base + ·)) place
    return []
  | place, known, f :: rest => do
    if ← Prerequisite.allHold f.prerequisites values then
      match values.find? f.name with
      | none => .error (.missingValue f.name)
      | some value =>
        let start := place + if f.header = 0 then 0 else headerSize
        checkPlace f.name ((f.offset.evaluate? known).map (base + ·)) start
        let pieces ← encodeValue c inner depth f values start value
        let bytes := Piece.size pieces
        let header ← encodeHeader c f bytes
        let others ← encodeFields c inner depth values base endOffset (start + bytes)
          (known.record f.toField value bytes) rest
        return Piece.ofBytes header ++ pieces ++ others
    else encodeFields c inner depth values base endOffset place (known.without f.name) rest

/-- The values of a struct; inside it structs nest less deep than `depth`. -/
def encodeStruct (c : Codec) : (depth : Nat) → StructEncoder
  | 0, _, _, _ => .error .nestingTooDeep
  | depth + 1, layout, values, start =>
    encodeFields c (encodeStruct c depth) depth values start layout.endOffset start .nothing
      layout.members

/-- Elements one after the other from a place on: the place of each, and the pieces of all. -/
def encodePointees (c : Codec) :
    (start : Nat) → List Pointee → Except CodecError (List Nat × List Piece)
  | _, [] => .ok ([], [])
  | start, p :: rest => do
    if start < UInt32.size then
      let pieces ← encodeStruct c p.depth p.layout p.values start
      let (places, others) ← encodePointees c (start + Piece.size pieces) rest
      return (start :: places, pieces ++ others)
    else .error (.lengthMismatch .slotTooFar)

/-- Elements from a place on, then the elements of their slots, and so on for at most so many
levels. -/
def encodeLevels (c : Codec) :
    (levels : Nat) → (start : Nat) → List Pointee → Except CodecError (List Nat × List Piece)
  | _, _, [] => .ok ([], [])
  | 0, _, _ :: _ => .error .nestingTooDeep
  | levels + 1, start, elements => do
    let (places, pieces) ← encodePointees c start elements
    let (deeper, others) ←
      encodeLevels c levels (start + Piece.size pieces) (Piece.pointees pieces)
    return (places ++ deeper, pieces ++ others)

/-- The bytes of a container with the given values. -/
def encode (c : Codec) (container : ContainerLayout) (values : Fields) :
    Except CodecError (List UInt8) := do
  let inline ← encodeFields c (encodeStruct c c.nesting) c.nesting values 0 container.endOffset 0
    .nothing container.fields
  let (places, behind) ←
    encodeLevels c c.nesting (Piece.size inline) (Piece.pointees inline)
  return Piece.fill c.order places (inline ++ behind)

end Codec

end WirePlan
