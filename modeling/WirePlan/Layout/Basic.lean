import WirePlan.Layout.Offset
import WirePlan.Schema.Basic

/-!
# Layouts

The layout of a field is its offset and its size. Each field starts behind what was placed before it
and behind its header. Its size moves the offsets after it on by its fixed bytes and by a term for
the others, and a gated field adds the correction for its header and fixed bytes (`Offset.pastM`).
-/

namespace WirePlan

/-- The size of a field on the wire. -/
inductive WireSize where
  | fixed (bytes : Nat)
  /-- A length of so many bytes, and that many bytes. -/
  | lengthPrefixed (bytes : Nat)
  /-- As many elements as the count field says. -/
  | repeated (countField : String) (element : WireSize)
  /-- The members of a struct, some of them of variable size. -/
  | composite (structType : String)
  deriving DecidableEq, Repr

namespace WireSize

/-- The number of bytes, where it is the same for all values. -/
def fixed? : WireSize → Option Nat
  | fixed n => some n
  | _ => none

/-- The text of the size. -/
def text : WireSize → String
  | fixed n => toString n
  | lengthPrefixed n => toString n ++ " + len"
  | repeated c e => c ++ " x (" ++ e.text ++ ")"
  | composite t => "sizeof(" ++ t ++ ")"

/-- The bytes that every value of the size has. -/
def fixedPart : WireSize → Nat
  | fixed n | lengthPrefixed n => n
  | repeated .. | composite _ => 0

/-- The term for the bytes that depend on the value of a field. -/
def term? (field : String) : WireSize → Option Offset.Term
  | fixed _ => none
  | lengthPrefixed _ => some (.stringBytes field)
  | repeated c (fixed n) => some (.elements field n c)
  | repeated .. | composite _ => some (.bytesOf field)

end WireSize

/-- The layout of a field. -/
structure PlacedField extends Field where
  /-- The bytes between the end of the field before and the value. -/
  header : Nat
  /-- The place of the value, counted from the start of the container or struct. -/
  offset : Offset
  size : WireSize
  deriving DecidableEq, Repr

/-- The elements of the field stand behind the container. -/
def PlacedField.isIndirect (f : PlacedField) : Bool := f.format = .refStructArray

/-- The layout of a struct. -/
structure StructLayout where
  name : String
  members : List PlacedField
  /-- The place just past the last member. -/
  endOffset : Offset
  size : WireSize
  usage : StructUsage
  deriving DecidableEq, Repr

/-- The correction for a gated field that takes so many fixed bytes. -/
def Field.correction? (f : Field) (bytes : Nat) : Option Offset.Term :=
  if f.isConditional && 0 < bytes then some (.absence f.name bytes) else none

/-- The place past a field whose value stands at an offset. The bytes of a correction are added up
only where there is one. -/
def Offset.pastM {m : Type → Type} [Monad m] [Arithmetic m] (o : Offset) (header : Nat) (f : Field)
    (size : WireSize) : m Offset := do
  let past ← o.advanceM size.fixedPart
  let absent ← if f.isConditional then addWord header size.fixedPart else pure 0
  return (past.plus (size.term? f.name)).plus (f.correction? absent)

end WirePlan
