import WirePlan.Codec.Scalar
import WirePlan.Proofs.Outcome
import WirePlan.Proofs.Text.Utf8

/-!
# Values without parts on the wire

A read succeeds exactly when the bytes read stand at their place (`Held`). What a value without
parts is encoded as is read back as that value (`Element.decode_of_encode`), and what is read is
encoded as the bytes it was read from, if text is well-formed (`Element.encode_of_decode`); the same
holds for one value after the other.
-/

namespace WirePlan

/-! ## Bytes at a place -/

/-- The bytes stand at a place of the data. -/
def Held (data : Array UInt8) (place : Nat) (bytes : List UInt8) : Prop :=
  place ≤ data.size ∧ bytes <+: data.toList.drop place

/-- Bytes stand at a place as their parts stand one behind the other. -/
theorem held_append {data : Array UInt8} {place : Nat} {xs ys : List UInt8} :
    Held data place (xs ++ ys) ↔ Held data place xs ∧ Held data (place + xs.length) ys := by
  constructor
  · rintro ⟨hplace, rest, hrest⟩
    have hlength := congrArg List.length hrest
    simp only [List.length_append, List.length_drop, Array.length_toList] at hlength
    refine ⟨⟨hplace, ys ++ rest, by rw [← hrest, List.append_assoc]⟩, by omega, rest, ?_⟩
    rw [← List.drop_drop, ← hrest, List.append_assoc, List.drop_left]
  · rintro ⟨⟨hplace, rest, hrest⟩, -, rest', hrest'⟩
    refine ⟨hplace, rest', ?_⟩
    rw [← List.drop_drop, ← hrest, List.drop_left] at hrest'
    rw [List.append_assoc, hrest', hrest]

/-- Bytes end within the data. -/
theorem Held.le_size {data : Array UInt8} {place : Nat} {bytes : List UInt8}
    (h : Held data place bytes) : place + bytes.length ≤ data.size := by
  have hle := h.2.length_le
  have := h.1
  simp only [List.length_drop, Array.length_toList] at hle
  omega

/-- A read of so many bytes gives those that stand at its place. -/
theorem readBytes_eq_ok {data : Array UInt8} {place count : Nat} {bytes : List UInt8} :
    readBytes data place count = .ok bytes ↔ Held data place bytes ∧ bytes.length = count := by
  have hextract : (data.extract place (place + count)).toList =
      (data.toList.drop place).take count := by
    rw [Array.toList_extract, List.extract_eq_take_drop, Nat.add_sub_cancel_left]
  rw [readBytes, ite_eq_ok, hextract]
  constructor
  · rintro ⟨hsize, rfl⟩
    refine ⟨⟨by omega, List.take_prefix _ _⟩, ?_⟩
    rw [List.length_take, List.length_drop, Array.length_toList]
    omega
  · rintro ⟨hheld, rfl⟩
    exact ⟨hheld.le_size, (List.prefix_iff_eq_take.1 hheld.2).symm⟩

/-- A read of bytes whose number is in the type. -/
theorem readOctets_eq_ok {data : Array UInt8} {place count : Nat} {octets : Octets count} :
    readOctets data place count = .ok octets ↔ Held data place octets.val := by
  rw [readOctets, bind_eq_ok]
  constructor
  · rintro ⟨bytes, hread, h⟩
    obtain ⟨hheld, hlength⟩ := readBytes_eq_ok.1 hread
    rw [Octets.ofList?, dif_pos hlength] at h
    cases h
    exact hheld
  · intro hheld
    refine ⟨octets.val, readBytes_eq_ok.2 ⟨hheld, octets.property⟩, ?_⟩
    rw [Octets.ofList?, dif_pos octets.property]

/-- Bytes denote a number that fits in as many. -/
theorem ofLowBytes_lt (bytes : List UInt8) : ofLowBytes bytes < capacity bytes.length := by
  induction bytes with
  | nil => decide
  | cons b rest ih =>
    have hb : b.toNat < 256 := b.toNat_lt
    simp only [ofLowBytes, List.length_cons, capacity]
    omega

/-- Bytes denote a number that fits in as many, in either order. -/
theorem ByteOrder.number_lt (order : ByteOrder) (bytes : List UInt8) :
    order.number bytes < capacity bytes.length := by
  cases order with
  | little => exact ofLowBytes_lt bytes
  | big => simpa [number] using ofLowBytes_lt bytes.reverse

/-- A byte travels as it is. -/
theorem ByteOrder.bytes_one (order : ByteOrder) (b : UInt8) : order.bytes 1 b.toNat = [b] := by
  cases order <;> simp [bytes, lowBytes]

/-- A number is read where its bytes stand. -/
theorem readNumber_eq_ok {order : ByteOrder} {data : Array UInt8} {place width n : Nat} :
    readNumber order data place width = .ok n ↔
      Held data place (order.bytes width n) ∧ n < capacity width := by
  rw [readNumber, bind_eq_ok]
  constructor
  · rintro ⟨bytes, hread, h⟩
    obtain ⟨hheld, rfl⟩ := readBytes_eq_ok.1 hread
    cases pure_eq_ok.1 h
    exact ⟨by rwa [order.bytes_number], order.number_lt bytes⟩
  · rintro ⟨hheld, hn⟩
    exact ⟨_, readBytes_eq_ok.2 ⟨hheld, order.length_bytes width n⟩,
      pure_eq_ok.2 (order.number_bytes hn)⟩

/-! ## One value -/

/-- A word fits in its bytes. -/
theorem IntFormat.toNat_lt (i : IntFormat) (word : BitVec i.bits) :
    word.toNat < capacity i.size := by
  cases i <;> exact word.isLt

/-- A number that fits in the bytes of a word is that of a word. -/
theorem IntFormat.toNat_ofNat (i : IntFormat) {n : Nat} (h : n < capacity i.size) :
    (BitVec.ofNat i.bits n).toNat = n := by
  rw [BitVec.toNat_ofNat]
  cases i <;> exact Nat.mod_eq_of_lt h

/-- A length that its format can tell fits in the bytes of the format. -/
theorem IntFormat.greatest_lt (i : IntFormat) : i.greatest < capacity i.size := by
  cases i <;> decide

/-- A format that may carry a length can tell every number of its width. -/
theorem IntFormat.capacity_le (i : IntFormat) (h : i.isLengthPrefix = true) :
    capacity i.size ≤ i.greatest + 1 := by
  cases i <;> first | decide | cases h

namespace Cursor

@[simp] theorem position_skip (cur : Cursor) (n : Nat) :
    (cur.skip n).position = cur.position + n := rfl

@[simp] theorem covered_skip (cur : Cursor) (n : Nat) : (cur.skip n).covered = cur.covered := rfl

@[simp] theorem texts_skip (cur : Cursor) (n : Nat) : (cur.skip n).texts = cur.texts := rfl

@[simp] theorem position_seek (cur : Cursor) (n : Nat) : (cur.seek n).position = n := rfl

@[simp] theorem covered_seek (cur : Cursor) (n : Nat) : (cur.seek n).covered = cur.covered := rfl

@[simp] theorem texts_seek (cur : Cursor) (n : Nat) : (cur.seek n).texts = cur.texts := rfl

@[simp] theorem position_cover (cur : Cursor) (n : Nat) :
    (cur.cover n).position = cur.position := rfl

@[simp] theorem covered_cover (cur : Cursor) (n : Nat) :
    (cur.cover n).covered = max cur.covered n := rfl

@[simp] theorem texts_cover (cur : Cursor) (n : Nat) : (cur.cover n).texts = cur.texts := rfl

@[simp] theorem position_note (cur : Cursor) (text : List UInt8) :
    (cur.note text).position = cur.position := rfl

@[simp] theorem covered_note (cur : Cursor) (text : List UInt8) :
    (cur.note text).covered = cur.covered := rfl

@[simp] theorem texts_note (cur : Cursor) (text : List UInt8) :
    (cur.note text).texts = text :: cur.texts := rfl

end Cursor

namespace Element

variable {order : ByteOrder} {data : Array UInt8} {lengthFormat : IntFormat} {field : String}

/-- **A value without parts is read back.** -/
theorem decode_of_encode {e : Element} {v : Value} {bytes : List UInt8}
    (h : e.encode order field lengthFormat v = .ok bytes) {cur : Cursor}
    (hheld : Held data cur.position bytes) :
    ∃ cur', e.decode order data lengthFormat cur = .ok (v, cur') ∧
      cur'.position = cur.position + bytes.length ∧ cur'.covered = cur.covered := by
  unfold encode at h
  split at h
  · next i j word =>
    obtain ⟨rfl, rfl⟩ := ite_eq_ok.1 h
    have hword : word.toNat < capacity i.size := i.toNat_lt word
    have hread : readNumber order data cur.position i.size = .ok word.toNat :=
      readNumber_eq_ok.2 ⟨hheld, hword⟩
    refine ⟨cur.skip i.size, ?_, by simp, rfl⟩
    rw [decode, hread]
    exact pure_eq_ok.2 (by rw [Value.ofNat, BitVec.ofNat_toNat, BitVec.setWidth_eq])
  · next b =>
    cases h
    refine ⟨cur.skip 16, ?_, by simp [b.property], rfl⟩
    rw [decode, readOctets_eq_ok.2 hheld]
    rfl
  · next b =>
    cases h
    refine ⟨cur.skip 4, ?_, by simp [b.property], rfl⟩
    rw [decode, readOctets_eq_ok.2 hheld]
    rfl
  · next b =>
    cases h
    refine ⟨cur.skip 16, ?_, by simp [b.property], rfl⟩
    rw [decode, readOctets_eq_ok.2 hheld]
    rfl
  · next s =>
    obtain ⟨hfits, rfl⟩ := ite_eq_ok.1 h
    obtain ⟨hlength, htext⟩ := held_append.1 hheld
    rw [order.length_bytes] at htext
    have hread := readNumber_eq_ok.2 ⟨hlength, Nat.lt_of_le_of_lt hfits lengthFormat.greatest_lt⟩
    have hleft : ¬ data.size - (cur.position + lengthFormat.size) < (Text.utf8Bytes s).length := by
      have := htext.le_size
      omega
    refine ⟨((cur.skip lengthFormat.size).skip (Text.utf8Bytes s).length).note (Text.utf8Bytes s),
      ?_, by simp [Nat.add_assoc], rfl⟩
    rw [decode, hread]
    refine bind_eq_ok.2 ⟨_, rfl, ?_⟩
    dsimp only
    rw [Cursor.position_skip, if_neg hleft, readBytes_eq_ok.2 ⟨htext, rfl⟩]
    exact pure_eq_ok.2 (by rw [Text.decodeUtf8_utf8Bytes])
  · cases h

/-- A format of fixed size takes as many bytes. -/
theorem length_of_encode {e : Element} {v : Value} {bytes : List UInt8} {n : Nat}
    (h : e.encode order field lengthFormat v = .ok bytes) (hsize : e.size? = some n) :
    bytes.length = n := by
  unfold encode at h
  split at h
  · obtain ⟨rfl, rfl⟩ := ite_eq_ok.1 h
    cases hsize
    exact order.length_bytes _ _
  · next b =>
    cases h
    cases hsize
    exact b.property
  · next b =>
    cases h
    cases hsize
    exact b.property
  · next b =>
    cases h
    cases hsize
    exact b.property
  · cases hsize
  · cases h

/-- A string takes at least the bytes of its length. -/
theorem le_length_of_encode {v : Value} {bytes : List UInt8}
    (h : Element.string.encode order field lengthFormat v = .ok bytes) :
    lengthFormat.size ≤ bytes.length := by
  cases v with
  | string s =>
    obtain ⟨-, rfl⟩ := ite_eq_ok.1 h
    rw [List.length_append, order.length_bytes]
    exact Nat.le_add_right _ _
  | int _ _ | uuid _ | ipv4 _ | ipv6 _ | array _ | struct _ => cases h

/-- Reading a value keeps the strings read before. -/
theorem texts_decode {e : Element} {v : Value} {cur cur' : Cursor}
    (h : e.decode order data lengthFormat cur = .ok (v, cur')) : cur.texts <:+ cur'.texts := by
  cases e with
  | int _ | uuid | ipv4 | ipv6 =>
    obtain ⟨_, -, h⟩ := bind_eq_ok.1 h
    cases pure_eq_ok.1 h
    exact List.suffix_refl _
  | string =>
    obtain ⟨_, -, h⟩ := bind_eq_ok.1 h
    dsimp only at h
    split at h
    · cases h
    · obtain ⟨text, -, h⟩ := bind_eq_ok.1 h
      cases pure_eq_ok.1 h
      exact List.suffix_cons _ _

/-- **What is read is encoded as the bytes it was read from**, if text is well-formed. -/
theorem encode_of_decode {e : Element} {v : Value} {cur cur' : Cursor}
    (h : e.decode order data lengthFormat cur = .ok (v, cur'))
    (hcarries : e = .string → lengthFormat.isLengthPrefix = true)
    (htexts : ∀ t ∈ cur'.texts, (Text.utf8Text? t).isSome) (field : String) :
    ∃ bytes, e.encode order field lengthFormat v = .ok bytes ∧
      Held data cur.position bytes ∧ cur'.position = cur.position + bytes.length ∧
      cur'.covered = cur.covered := by
  cases e with
  | int i =>
    obtain ⟨n, hread, h⟩ := bind_eq_ok.1 h
    cases pure_eq_ok.1 h
    obtain ⟨hheld, hn⟩ := readNumber_eq_ok.1 hread
    refine ⟨order.bytes i.size n, ?_, hheld, by simp, rfl⟩
    rw [Value.ofNat, encode, if_pos rfl, i.toNat_ofNat hn]
  | uuid =>
    obtain ⟨b, hread, h⟩ := bind_eq_ok.1 h
    cases pure_eq_ok.1 h
    exact ⟨b.val, rfl, readOctets_eq_ok.1 hread, by simp [b.property], rfl⟩
  | ipv4 =>
    obtain ⟨b, hread, h⟩ := bind_eq_ok.1 h
    cases pure_eq_ok.1 h
    exact ⟨b.val, rfl, readOctets_eq_ok.1 hread, by simp [b.property], rfl⟩
  | ipv6 =>
    obtain ⟨b, hread, h⟩ := bind_eq_ok.1 h
    cases pure_eq_ok.1 h
    exact ⟨b.val, rfl, readOctets_eq_ok.1 hread, by simp [b.property], rfl⟩
  | string =>
    obtain ⟨n, hlength, h⟩ := bind_eq_ok.1 h
    dsimp only at h
    split at h
    · cases h
    · obtain ⟨text, hread, h⟩ := bind_eq_ok.1 h
      cases pure_eq_ok.1 h
      obtain ⟨hheld, hn⟩ := readNumber_eq_ok.1 hlength
      obtain ⟨htext, rfl⟩ := readBytes_eq_ok.1 hread
      have hvalid : Text.utf8Bytes (Text.decodeUtf8 text) = text :=
        Text.utf8Bytes_decodeUtf8 (htexts text (.head _))
      have hfits : text.length ≤ lengthFormat.greatest := by
        have := lengthFormat.capacity_le (hcarries rfl)
        omega
      refine ⟨order.bytes lengthFormat.size text.length ++ text, ?_, ?_, ?_, rfl⟩
      · rw [encode, hvalid, if_pos hfits]
      · refine held_append.2 ⟨hheld, ?_⟩
        rwa [order.length_bytes]
      · simp [Nat.add_assoc]

/-! ## One value after the other -/

/-- **Values without parts are read back.** `done` holds those read before. -/
theorem decodeMany_of_encode {e : Element} {items : List Value} {parts : List (List UInt8)}
    (h : items.mapM (e.encode order field lengthFormat) = .ok parts) {cur : Cursor}
    (hheld : Held data cur.position parts.flatten) (done : List Value) :
    ∃ cur', e.decodeMany order data lengthFormat items.length cur done =
        .ok (done.reverse ++ items, cur') ∧
      cur'.position = cur.position + parts.flatten.length ∧ cur'.covered = cur.covered := by
  induction items generalizing parts cur done with
  | nil =>
    cases pure_eq_ok.1 h
    exact ⟨cur, by rw [List.append_nil]; rfl, rfl, rfl⟩
  | cons v items ih =>
    rw [List.mapM_cons] at h
    obtain ⟨bytes, hbytes, h⟩ := bind_eq_ok.1 h
    obtain ⟨others, hothers, h⟩ := bind_eq_ok.1 h
    cases pure_eq_ok.1 h
    obtain ⟨hfirst, hrest⟩ := held_append.1 hheld
    obtain ⟨next, hnext, hposition, hcovered⟩ := decode_of_encode hbytes hfirst
    rw [← hposition] at hrest
    obtain ⟨cur', hcur', hposition', hcovered'⟩ := ih hothers hrest (v :: done)
    refine ⟨cur', ?_, ?_, hcovered'.trans hcovered⟩
    · rw [List.length_cons, decodeMany, hnext]
      simpa using hcur'
    · rw [hposition', hposition, List.flatten_cons, List.length_append, Nat.add_assoc]

/-- Reading one value after the other keeps the strings read before. -/
theorem texts_decodeMany {e : Element} {count : Nat} {done items : List Value} {cur cur' : Cursor}
    (h : e.decodeMany order data lengthFormat count cur done = .ok (items, cur')) :
    cur.texts <:+ cur'.texts := by
  induction count generalizing done cur with
  | zero =>
    cases h
    exact List.suffix_refl _
  | succ count ih =>
    rw [decodeMany] at h
    split at h
    · next hnext => exact (texts_decode hnext).trans (ih h)
    · cases h

/-- **What is read one after the other is encoded as the bytes it was read from**, if text is
well-formed. -/
theorem encode_of_decodeMany {e : Element} {count : Nat} {done all : List Value}
    {cur cur' : Cursor} (h : e.decodeMany order data lengthFormat count cur done = .ok (all, cur'))
    (hplace : cur.position ≤ data.size)
    (hcarries : e = .string → lengthFormat.isLengthPrefix = true)
    (htexts : ∀ t ∈ cur'.texts, (Text.utf8Text? t).isSome) (field : String) :
    ∃ items parts, all = done.reverse ++ items ∧ items.length = count ∧
      items.mapM (e.encode order field lengthFormat) = .ok parts ∧
      Held data cur.position parts.flatten ∧
      cur'.position = cur.position + parts.flatten.length ∧ cur'.covered = cur.covered := by
  induction count generalizing done cur with
  | zero =>
    cases h
    exact ⟨[], [], by simp, rfl, rfl, ⟨hplace, List.nil_prefix⟩, rfl, rfl⟩
  | succ count ih =>
    rw [decodeMany] at h
    split at h
    · next v next hnext =>
      have hsuffix := texts_decodeMany h
      obtain ⟨bytes, hbytes, hheld, hposition, hcovered⟩ :=
        encode_of_decode hnext hcarries (fun t ht => htexts t (hsuffix.subset ht)) field
      obtain ⟨items, parts, rfl, rfl, hparts, hheld', hposition', hcovered'⟩ :=
        ih h (hposition ▸ hheld.le_size)
      refine ⟨v :: items, bytes :: parts, by simp, rfl, ?_, ?_, ?_, hcovered'.trans hcovered⟩
      · rw [List.mapM_cons, hbytes]
        exact bind_eq_ok.2 ⟨_, rfl, bind_eq_ok.2 ⟨_, hparts, rfl⟩⟩
      · exact held_append.2 ⟨hheld, hposition ▸ hheld'⟩
      · rw [hposition', hposition, List.flatten_cons, List.length_append, Nat.add_assoc]
    · cases h

/-- Values of fixed size take as many bytes each. -/
theorem length_of_encodeMany {e : Element} {items : List Value} {parts : List (List UInt8)}
    {n : Nat} (h : items.mapM (e.encode order field lengthFormat) = .ok parts)
    (hsize : e.size? = some n) :
    parts.flatten.length = n * items.length := by
  induction items generalizing parts with
  | nil =>
    cases pure_eq_ok.1 h
    rfl
  | cons v items ih =>
    rw [List.mapM_cons] at h
    obtain ⟨bytes, hbytes, h⟩ := bind_eq_ok.1 h
    obtain ⟨others, hothers, h⟩ := bind_eq_ok.1 h
    cases pure_eq_ok.1 h
    rw [List.flatten_cons, List.length_append, length_of_encode hbytes hsize, ih hothers,
      List.length_cons, Nat.mul_succ, Nat.add_comm]

end Element

end WirePlan
