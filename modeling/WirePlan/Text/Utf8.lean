/-!
# UTF-8 that may be damaged

Strings travel as UTF-8. A reader must accept any bytes, so damaged text is read with one
replacement character for each maximal part that cannot be continued to a well-formed character;
the byte that does not fit starts anew. The reader is a machine that takes one byte at a time
(`Utf8Reader.feed`): it holds the characters read so far and, inside a character, the bits
collected, the number of bytes still owed and the bounds of the next one. The bounds of the second
byte are what excludes overlong forms, surrogates and values above the last code point.
-/

namespace WirePlan.Text

/-- The bytes of a text in UTF-8. -/
def utf8Bytes (s : String) : List UInt8 := s.toList.flatMap String.utf8EncodeChar

/-- A character that is not complete yet. -/
structure PartialChar where
  /-- The bits collected so far. -/
  bits : Nat
  /-- The bytes still owed, less one. -/
  owedAfterNext : Nat
  /-- The least value of the next byte. -/
  low : Nat
  /-- The greatest value of the next byte. -/
  high : Nat

/-- What a leading byte announces; `none` for a byte that starts no character of several bytes. -/
def PartialChar.ofLead? (b : Nat) : Option PartialChar :=
  if 0xC2 ≤ b ∧ b ≤ 0xDF then some ⟨b - 0xC0, 0, 0x80, 0xBF⟩
  else if b = 0xE0 then some ⟨0, 1, 0xA0, 0xBF⟩
  else if b = 0xED then some ⟨0xD, 1, 0x80, 0x9F⟩
  else if 0xE1 ≤ b ∧ b ≤ 0xEF then some ⟨b - 0xE0, 1, 0x80, 0xBF⟩
  else if b = 0xF0 then some ⟨0, 2, 0x90, 0xBF⟩
  else if 0xF1 ≤ b ∧ b ≤ 0xF3 then some ⟨b - 0xF0, 2, 0x80, 0xBF⟩
  else if b = 0xF4 then some ⟨4, 2, 0x80, 0x8F⟩
  else none

/-- The character that stands for bytes that cannot be read. -/
def replacementChar : Char := '\uFFFD'

/-- The characters read so far, the last one first, and the character under way. -/
structure Utf8Reader where
  /-- Characters read, the last one first. -/
  done : List Char
  /-- The character under way, if any. -/
  pending : Option PartialChar

/-- A byte at the start of a character. -/
def Utf8Reader.start (done : List Char) (b : Nat) : Utf8Reader :=
  if b < 0x80 then ⟨Char.ofNat b :: done, none⟩
  else match PartialChar.ofLead? b with
    | some p => ⟨done, some p⟩
    | none => ⟨replacementChar :: done, none⟩

/-- One more byte. A byte that does not continue the character under way replaces what was read of
it and starts anew. -/
def Utf8Reader.feed (r : Utf8Reader) (byte : UInt8) : Utf8Reader :=
  let b := byte.toNat
  match r.pending with
  | none => .start r.done b
  | some p =>
    if p.low ≤ b ∧ b ≤ p.high then
      let bits := p.bits * 64 + (b - 0x80)
      match p.owedAfterNext with
      | 0 => ⟨Char.ofNat bits :: r.done, none⟩
      | n + 1 => ⟨r.done, some ⟨bits, n, 0x80, 0xBF⟩⟩
    else .start (replacementChar :: r.done) b

/-- The text read, with a replacement for a character that the end cuts off. -/
def Utf8Reader.finish (r : Utf8Reader) : String :=
  match r.pending with
  | none => .ofList r.done.reverse
  | some _ => .ofList (replacementChar :: r.done).reverse

/-- The text that bytes hold, damaged parts replaced. -/
def decodeUtf8 (bytes : List UInt8) : String :=
  (bytes.foldl Utf8Reader.feed ⟨[], none⟩).finish

/-- The text that bytes hold, if all of them are well-formed. -/
def utf8Text? (bytes : List UInt8) : Option String :=
  String.fromUTF8? ⟨bytes.toArray⟩

end WirePlan.Text
