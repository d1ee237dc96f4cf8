import Mathlib.Tactic.SplitIfs
import WirePlan.Text.Utf8

/-!
# Texts survive the wire

Reading the bytes of a text gives the text back (`Text.decodeUtf8_utf8Bytes`): between characters
the reader holds what was read, and the bytes of one character add that character
(`Utf8Reader.foldl_feed_encodeChar`). So well-formed bytes are those of the text read from them
(`Text.utf8Bytes_decodeUtf8`).
-/

namespace WirePlan.Text

/-- A byte that starts a character of two bytes. -/
theorem PartialChar.ofLead?_two {b : Nat} (hlow : 0xC2 ≤ b) (hhigh : b ≤ 0xDF) :
    ofLead? b = some ⟨b - 0xC0, 0, 0x80, 0xBF⟩ := by
  rw [ofLead?, if_pos ⟨hlow, hhigh⟩]

/-- A byte that starts a character of three bytes. The bounds of the second byte exclude overlong
forms and surrogates. -/
theorem PartialChar.ofLead?_three {b : Nat} (hlow : 0xE0 ≤ b) (hhigh : b ≤ 0xEF) :
    ofLead? b = some ⟨b - 0xE0, 1, if b = 0xE0 then 0xA0 else 0x80,
      if b = 0xED then 0x9F else 0xBF⟩ := by
  unfold ofLead?
  split_ifs <;> simp_all <;> omega

/-- A byte that starts a character of four bytes. The bounds of the second byte exclude overlong
forms and values above the last code point. -/
theorem PartialChar.ofLead?_four {b : Nat} (hlow : 0xF0 ≤ b) (hhigh : b ≤ 0xF4) :
    ofLead? b = some ⟨b - 0xF0, 2, if b = 0xF0 then 0x90 else 0x80,
      if b = 0xF4 then 0x8F else 0xBF⟩ := by
  unfold ofLead?
  split_ifs <;> simp_all <;> omega

namespace Utf8Reader

variable {done : List Char} {bits owed low high : Nat} {byte : UInt8}

/-- A byte that starts a character of several bytes. -/
theorem feed_lead {p : PartialChar} (hhigh : 0x80 ≤ byte.toNat)
    (hlead : PartialChar.ofLead? byte.toNat = some p) :
    feed ⟨done, none⟩ byte = ⟨done, some p⟩ := by
  rw [feed]
  dsimp only
  rw [start, if_neg (by omega), hlead]

/-- A byte that continues a character and leaves others owed. -/
theorem feed_continue (hlow : low ≤ byte.toNat) (hhigh : byte.toNat ≤ high) :
    feed ⟨done, some ⟨bits, owed + 1, low, high⟩⟩ byte =
      ⟨done, some ⟨bits * 64 + (byte.toNat - 0x80), owed, 0x80, 0xBF⟩⟩ := by
  rw [feed]
  dsimp only
  rw [if_pos ⟨hlow, hhigh⟩]

/-- The last byte of a character. -/
theorem feed_last (hlow : low ≤ byte.toNat) (hhigh : byte.toNat ≤ high) :
    feed ⟨done, some ⟨bits, 0, low, high⟩⟩ byte =
      ⟨Char.ofNat (bits * 64 + (byte.toNat - 0x80)) :: done, none⟩ := by
  rw [feed]
  dsimp only
  rw [if_pos ⟨hlow, hhigh⟩]

/-- A byte below the bound is the number it was made from. -/
theorem toNat_byte {n : Nat} (h : n < 256) : (UInt8.ofNat n).toNat = n := by
  rw [UInt8.toNat_ofNat']
  exact Nat.mod_eq_of_lt h

/-- Three bytes that carry the bits of a code point from four digits of sixteen on. -/
theorem foldl_feed_three (done : List Char) {v : Nat} (hlow : 0x7FF < v) (hhigh : v ≤ 0xFFFF)
    (hvalid : v < 0xD800 ∨ 0xDFFF < v) :
    [UInt8.ofNat (v / 4096 % 16 + 0xE0), .ofNat (v / 64 % 64 + 0x80), .ofNat (v % 64 + 0x80)].foldl
      feed ⟨done, none⟩ = ⟨Char.ofNat v :: done, none⟩ := by
  have hlead : (UInt8.ofNat (v / 4096 % 16 + 0xE0)).toNat = v / 4096 + 0xE0 := by
    rw [toNat_byte (by omega)]
    omega
  have hsecond := toNat_byte (n := v / 64 % 64 + 0x80) (by omega)
  have hthird := toNat_byte (n := v % 64 + 0x80) (by omega)
  have hfirst := PartialChar.ofLead?_three (b := v / 4096 + 0xE0) (by omega) (by omega)
  rw [← hlead] at hfirst
  rw [List.foldl_cons, List.foldl_cons, List.foldl_cons, List.foldl_nil,
    feed_lead (by omega) hfirst, feed_continue, feed_last, hlead, hsecond, hthird]
  · have hbits : ((v / 4096 + 0xE0 - 0xE0) * 64 + (v / 64 % 64 + 0x80 - 0x80)) * 64 +
        (v % 64 + 0x80 - 0x80) = v := by omega
    rw [hbits]
  · omega
  · omega
  · rw [hsecond, hlead]
    split_ifs <;> omega
  · rw [hsecond, hlead]
    split_ifs <;> omega

/-- Four bytes that carry the bits of a code point from five digits of sixteen on. -/
theorem foldl_feed_four (done : List Char) {v : Nat} (hlow : 0xFFFF < v) (hhigh : v < 0x110000) :
    [UInt8.ofNat (v / 262144 % 8 + 0xF0), .ofNat (v / 4096 % 64 + 0x80),
      .ofNat (v / 64 % 64 + 0x80), .ofNat (v % 64 + 0x80)].foldl feed ⟨done, none⟩ =
        ⟨Char.ofNat v :: done, none⟩ := by
  have hlead : (UInt8.ofNat (v / 262144 % 8 + 0xF0)).toNat = v / 262144 + 0xF0 := by
    rw [toNat_byte (by omega)]
    omega
  have hsecond := toNat_byte (n := v / 4096 % 64 + 0x80) (by omega)
  have hthird := toNat_byte (n := v / 64 % 64 + 0x80) (by omega)
  have hfourth := toNat_byte (n := v % 64 + 0x80) (by omega)
  have hfirst := PartialChar.ofLead?_four (b := v / 262144 + 0xF0) (by omega) (by omega)
  rw [← hlead] at hfirst
  rw [List.foldl_cons, List.foldl_cons, List.foldl_cons, List.foldl_cons, List.foldl_nil,
    feed_lead (by omega) hfirst, feed_continue, feed_continue, feed_last, hlead, hsecond, hthird,
    hfourth]
  · have hbits : (((v / 262144 + 0xF0 - 0xF0) * 64 + (v / 4096 % 64 + 0x80 - 0x80)) * 64 +
        (v / 64 % 64 + 0x80 - 0x80)) * 64 + (v % 64 + 0x80 - 0x80) = v := by omega
    rw [hbits]
  · omega
  · omega
  · omega
  · omega
  · rw [hsecond, hlead]
    split_ifs <;> omega
  · rw [hsecond, hlead]
    split_ifs <;> omega

/-- The bytes of a character add that character to what was read. -/
theorem foldl_feed_encodeChar (done : List Char) (c : Char) :
    (String.utf8EncodeChar c).foldl feed ⟨done, none⟩ = ⟨c :: done, none⟩ := by
  have hvalid : c.toNat < 0xD800 ∨ 0xDFFF < c.toNat ∧ c.toNat < 0x110000 := c.valid
  have hchar : Char.ofNat c.toNat = c := Char.ofNat_toNat c
  have hval : c.val.toNat = c.toNat := rfl
  unfold String.utf8EncodeChar
  dsimp only
  rw [hval]
  generalize c.toNat = v at hvalid hchar
  split
  · next hone =>
    have hbyte := toNat_byte (n := v) (by omega)
    rw [List.foldl_cons, List.foldl_nil, feed]
    dsimp only
    rw [start, if_pos (by omega), hbyte, hchar]
  · next hone =>
    split
    · next htwo =>
      have hlead : (UInt8.ofNat (v / 64 % 32 + 0xC0)).toNat = v / 64 + 0xC0 := by
        rw [toNat_byte (by omega)]
        omega
      have hsecond := toNat_byte (n := v % 64 + 0x80) (by omega)
      have hfirst := PartialChar.ofLead?_two (b := v / 64 + 0xC0) (by omega) (by omega)
      rw [← hlead] at hfirst
      rw [List.foldl_cons, List.foldl_cons, List.foldl_nil, feed_lead (by omega) hfirst,
        feed_last (by omega) (by omega), hlead, hsecond]
      have hbits : (v / 64 + 0xC0 - 0xC0) * 64 + (v % 64 + 0x80 - 0x80) = v := by omega
      rw [hbits, hchar]
    · next htwo =>
      split
      · next hthree =>
        rw [foldl_feed_three done (by omega) hthree (by omega), hchar]
      · next hthree =>
        rw [foldl_feed_four done (by omega) (by omega), hchar]

end Utf8Reader

/-- **Texts survive.** -/
theorem decodeUtf8_utf8Bytes (s : String) : decodeUtf8 (utf8Bytes s) = s := by
  have hread : ∀ (cs done : List Char),
      (cs.flatMap String.utf8EncodeChar).foldl Utf8Reader.feed ⟨done, none⟩ =
        ⟨cs.reverse ++ done, none⟩ := by
    intro cs
    induction cs with
    | nil => exact fun _ => rfl
    | cons c cs ih =>
      intro done
      rw [List.flatMap_cons, List.foldl_append, Utf8Reader.foldl_feed_encodeChar, ih]
      simp
  rw [decodeUtf8, utf8Bytes, hread]
  simp [Utf8Reader.finish]

/-- Well-formed bytes are those of some text. -/
theorem exists_of_utf8Text? {bytes : List UInt8} (h : (utf8Text? bytes).isSome) :
    ∃ s, utf8Bytes s = bytes := by
  unfold utf8Text? String.fromUTF8? at h
  split at h
  · next hvalid =>
    obtain ⟨cs, hcs⟩ := hvalid
    have hbytes : bytes = cs.flatMap String.utf8EncodeChar := by
      have := congrArg (fun b : ByteArray => b.data.toList) hcs
      simpa [List.utf8Encode, List.toList_data_toByteArray] using this
    exact ⟨.ofList cs, by rw [utf8Bytes, String.toList_ofList, hbytes]⟩
  · cases h

/-- **Well-formed bytes are those of the text read from them.** -/
theorem utf8Bytes_decodeUtf8 {bytes : List UInt8} (h : (utf8Text? bytes).isSome) :
    utf8Bytes (decodeUtf8 bytes) = bytes := by
  obtain ⟨s, rfl⟩ := exists_of_utf8Text? h
  rw [decodeUtf8_utf8Bytes]

end WirePlan.Text
