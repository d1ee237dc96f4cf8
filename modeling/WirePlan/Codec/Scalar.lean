import WirePlan.Codec.ByteOrder
import WirePlan.Codec.Error
import WirePlan.Text.Utf8
import WirePlan.Value.Basic

/-!
# Values without parts

Integers, identifiers, addresses and strings, as single fields or as elements of plain arrays. A
string carries the number of its bytes in front. Reading starts where a cursor stands in the whole
bytes and leaves it behind the value.
-/

namespace WirePlan

namespace Element

/-- The bytes of a value of this format; the field is named in errors. -/
def encode (order : ByteOrder) (field : String) (lengthFormat : IntFormat) :
    Element → Value → Except CodecError (List UInt8)
  | .int i, .int j word =>
    if i = j then .ok (order.bytes i.size word.toNat)
    else .error (.typeMismatch field (.element (.int i)))
  | .uuid, .uuid b => .ok b.val
  | .ipv4, .ipv4 b => .ok b.val
  | .ipv6, .ipv6 b => .ok b.val
  | .string, .string s =>
    let bytes := Text.utf8Bytes s
    if bytes.length ≤ lengthFormat.greatest then
      .ok (order.bytes lengthFormat.size bytes.length ++ bytes)
    else .error (.lengthMismatch (.stringTooLong field bytes.length lengthFormat))
  | e, _ => .error (.typeMismatch field (.element e))

end Element

/-- The bytes at a position. -/
def readBytes (data : Array UInt8) (position count : Nat) : Except CodecError (List UInt8) :=
  if position + count ≤ data.size then .ok (data.extract position (position + count)).toList
  else .error .endOfBytes

/-- The bytes at a position, their number in the type. -/
def readOctets (data : Array UInt8) (position count : Nat) : Except CodecError (Octets count) := do
  match Octets.ofList? count (← readBytes data position count) with
  | some b => .ok b
  | none => .error .endOfBytes

/-- The number at a position. -/
def readNumber (order : ByteOrder) (data : Array UInt8) (position width : Nat) :
    Except CodecError Nat := do
  return order.number (← readBytes data position width)

/-- Where reading stands, the end of the bytes covered so far, and the bytes of the strings read so
far, the last one first. -/
structure Cursor where
  position : Nat := 0
  covered : Nat := 0
  texts : List (List UInt8) := []
  deriving DecidableEq, Repr

namespace Cursor

/-- Reading goes on at a position. -/
def seek (cur : Cursor) (position : Nat) : Cursor := { cur with position }

/-- Reading goes on so many bytes further. -/
def skip (cur : Cursor) (bytes : Nat) : Cursor := cur.seek (cur.position + bytes)

/-- The bytes up to a position are covered. -/
def cover (cur : Cursor) (position : Nat) : Cursor :=
  { cur with covered := max cur.covered position }

/-- A string of these bytes was read. -/
def note (cur : Cursor) (text : List UInt8) : Cursor := { cur with texts := text :: cur.texts }

end Cursor

namespace Element

/-- The value of this format at the cursor, which then stands behind it. -/
def decode (order : ByteOrder) (data : Array UInt8) (lengthFormat : IntFormat) (cur : Cursor) :
    Element → Except CodecError (Value × Cursor)
  | .int i => do
    let n ← readNumber order data cur.position i.size
    return (.ofNat i n, cur.skip i.size)
  | .uuid => do return (.uuid (← readOctets data cur.position 16), cur.skip 16)
  | .ipv4 => do return (.ipv4 (← readOctets data cur.position 4), cur.skip 4)
  | .ipv6 => do return (.ipv6 (← readOctets data cur.position 16), cur.skip 16)
  | .string => do
    let length ← readNumber order data cur.position lengthFormat.size
    let cur := cur.skip lengthFormat.size
    let left := data.size - cur.position
    if left < length then .error (.lengthMismatch (.stringPastEnd length left))
    else
      let bytes ← readBytes data cur.position length
      return (.string (Text.decodeUtf8 bytes), (cur.skip length).note bytes)

/-- The values of this format at the cursor, one after the other; `done` holds those read already,
the last one first. -/
def decodeMany (order : ByteOrder) (data : Array UInt8) (lengthFormat : IntFormat)
    (element : Element) : (count : Nat) → Cursor → (done : List Value) →
      Except CodecError (List Value × Cursor)
  | 0, cur, done => .ok (done.reverse, cur)
  | count + 1, cur, done =>
    match element.decode order data lengthFormat cur with
    | .ok (v, cur) => decodeMany order data lengthFormat element count cur (v :: done)
    | .error e => .error e

end Element

end WirePlan
