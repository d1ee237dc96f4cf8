/-!
# Field formats

The closed set of formats a field may have, each known by its tag in a schema (`Format.ofTag?`),
with what the layout and the codec ask of it: how many bytes it takes, whether it is an array,
whether it names a struct, whether it may count the elements of an array. A boxed format has the
same bytes as the plain one; only generated code tells them apart.
-/

namespace WirePlan

/-! ## Integers -/

/-- The integer formats: a width in bits, with or without sign. -/
inductive IntFormat where
  | u8 | u16 | u32 | u64 | i8 | i16 | i32 | i64
  deriving DecidableEq, Repr

namespace IntFormat

/-- All integer formats. -/
def all : List IntFormat := [.u8, .u16, .u32, .u64, .i8, .i16, .i32, .i64]

/-- The bytes on the wire. -/
def size : IntFormat → Nat
  | u8 | i8 => 1
  | u16 | i16 => 2
  | u32 | i32 => 4
  | u64 | i64 => 8

/-- The bits on the wire. -/
def bits (f : IntFormat) : Nat := 8 * f.size

/-- Negative values are meant by a leading one bit. -/
def isSigned : IntFormat → Bool
  | u8 | u16 | u32 | u64 => false
  | i8 | i16 | i32 | i64 => true

/-- The tag in a schema. -/
def tag : IntFormat → String
  | u8 => "guint8"
  | u16 => "guint16"
  | u32 => "guint32"
  | u64 => "guint64"
  | i8 => "gint8"
  | i16 => "gint16"
  | i32 => "gint32"
  | i64 => "gint64"

/-- The integer format with a tag. -/
def ofTag? (tag : String) : Option IntFormat := all.find? fun f => f.tag = tag

/-- A string may carry its length in this format. -/
def isLengthPrefix (f : IntFormat) : Bool := !f.isSigned && f.size ≤ 4

/-- The greatest number of bytes or elements that the format tells; words of eight bytes are taken
without sign. -/
def greatest : IntFormat → Nat
  | u8 => 0xFF
  | i8 => 0x7F
  | u16 => 0xFFFF
  | i16 => 0x7FFF
  | u32 => 0xFFFFFFFF
  | i32 => 0x7FFFFFFF
  | u64 | i64 => 0xFFFFFFFFFFFFFFFF

end IntFormat

/-! ## Elements of plain arrays -/

/-- The formats of the elements of a plain array, which are also the formats without parts. -/
inductive Element where
  | int (format : IntFormat)
  | uuid
  | string
  | ipv4
  | ipv6
  deriving DecidableEq, Repr

namespace Element

/-- The bytes of an opaque identifier. -/
def uuidSize : Nat := 16

/-- The bytes on the wire; a string has no fixed number. -/
def size? : Element → Option Nat
  | int f => some f.size
  | uuid => some uuidSize
  | ipv4 => some 4
  | ipv6 => some 16
  | string => none

/-- The tag in a schema. -/
def tag : Element → String
  | int f => f.tag
  | uuid => "uuid"
  | string => "string"
  | ipv4 => "ipv4"
  | ipv6 => "ipv6"

/-- Every element format. -/
def all : List Element := IntFormat.all.map int ++ [uuid, string, ipv4, ipv6]

end Element

/-! ## Formats -/

/-- The format of a field. -/
inductive Format where
  | int (format : IntFormat)
  | uuid
  | string
  | ipv4
  | ipv6
  /-- A boxed `ipv4`. -/
  | refIpv4
  /-- A boxed `ipv6`. -/
  | refIpv6
  /-- A plain array. -/
  | array (element : Element)
  | struct
  /-- A boxed `struct`. -/
  | refStruct
  /-- Structs one after the other. -/
  | structArray
  /-- One slot for each element, the elements behind the container. -/
  | refStructArray
  deriving DecidableEq, Repr

namespace Format

/-- The bytes of a slot: the place of the element, counted from the container's start. -/
def slotSize : Nat := 4

/-- The tag in a schema. -/
def tag : Format → String
  | int f => f.tag
  | uuid => "uuid"
  | string => "string"
  | ipv4 => "ipv4"
  | ipv6 => "ipv6"
  | refIpv4 => "ref-ipv4"
  | refIpv6 => "ref-ipv6"
  | array e => e.tag ++ "-array"
  | struct => "struct"
  | refStruct => "ref-struct"
  | structArray => "struct-array"
  | refStructArray => "ref-struct-array"

/-- Every format. -/
def all : List Format :=
  IntFormat.all.map int ++ [uuid, string, ipv4, ipv6, refIpv4, refIpv6] ++
    Element.all.map array ++ [struct, refStruct, structArray, refStructArray]

/-- The format with a tag. Arrays of bytes have a second tag. -/
def ofTag? (tag : String) : Option Format :=
  if tag = "byte-array" then some (array (.int .u8)) else all.find? fun f => f.tag = tag

/-- The bytes of a format that always has the same number; zero for all others. -/
def fixedSize : Format → Nat
  | int f => f.size
  | uuid => Element.uuidSize
  | ipv4 | refIpv4 => 4
  | ipv6 | refIpv6 => 16
  | string | array _ | struct | refStruct | structArray | refStructArray => 0

/-- The field holds a number of elements that another field counts. -/
def isArray : Format → Bool
  | array _ | structArray | refStructArray => true
  | _ => false

/-- The field or its elements are structs. -/
def isStructShaped : Format → Bool
  | struct | refStruct | structArray | refStructArray => true
  | _ => false

/-- Generated code holds the value in a box. -/
def isBoxed : Format → Bool
  | refIpv4 | refIpv6 | refStruct => true
  | _ => false

/-- The bytes of one element inside the container, where they are the same for all schemas. -/
def elementSize? : Format → Option Nat
  | array e => e.size?
  | refStructArray => some slotSize
  | _ => none

/-- A length or a count has to be known before the field can be read. -/
def needsLength : Format → Bool
  | string => true
  | f => f.isArray

/-- The field may count the elements of an array; a negative number counts nothing. -/
def canCount : Format → Bool
  | int f => !f.isSigned
  | _ => false

/-- The integer format of an integer field. -/
def int? : Format → Option IntFormat
  | int f => some f
  | _ => none

/-- The shape of a format without parts. -/
def scalar? : Format → Option Element
  | int f => some (.int f)
  | uuid => some .uuid
  | string => some .string
  | ipv4 | refIpv4 => some .ipv4
  | ipv6 | refIpv6 => some .ipv6
  | array _ | struct | refStruct | structArray | refStructArray => none

/-- Strings, alone or in an array, carry their length in front. -/
def hasLengthPrefix : Format → Bool
  | string | array .string => true
  | _ => false

end Format

/-- A tag that no format has. -/
structure UnknownFormat where
  tag : String
  deriving DecidableEq, Repr

/-- The text of the error. -/
def UnknownFormat.message (e : UnknownFormat) : String := "unknown format '" ++ e.tag ++ "'"

/-- The format with a tag. -/
def Format.lookup (tag : String) : Except UnknownFormat Format :=
  match ofTag? tag with
  | some f => .ok f
  | none => .error ⟨tag⟩

/-- The integer format with a tag that a string may carry its length in. -/
def IntFormat.lookupLengthPrefix (tag : String) : Except UnknownFormat IntFormat :=
  match ofTag? tag with
  | some f => if f.isLengthPrefix then .ok f else .error ⟨tag⟩
  | none => .error ⟨tag⟩

end WirePlan
