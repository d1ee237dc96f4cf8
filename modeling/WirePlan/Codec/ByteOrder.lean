/-!
# Byte orders

A number travels as a fixed count of bytes, least significant byte first or last. Writing and
reading are inverse for numbers that fit (`ByteOrder.number_bytes`, `ByteOrder.bytes_number`).
-/

namespace WirePlan

/-- The order of the bytes of a number. -/
inductive ByteOrder where
  | big | little
  deriving DecidableEq, Repr

/-- How many numbers so many bytes tell apart. -/
def capacity : (width : Nat) → Nat
  | 0 => 1
  | width + 1 => 256 * capacity width

/-- The low bytes of a number, least significant first. -/
def lowBytes : (width : Nat) → Nat → List UInt8
  | 0, _ => []
  | width + 1, n => .ofNat n :: lowBytes width (n / 256)

/-- The number that bytes denote, least significant first. -/
def ofLowBytes : List UInt8 → Nat
  | [] => 0
  | b :: rest => b.toNat + 256 * ofLowBytes rest

@[simp] theorem length_lowBytes (width n : Nat) : (lowBytes width n).length = width := by
  induction width generalizing n with
  | zero => rfl
  | succ width ih => simp [lowBytes, ih]

theorem ofLowBytes_lowBytes {width n : Nat} (h : n < capacity width) :
    ofLowBytes (lowBytes width n) = n := by
  induction width generalizing n with
  | zero => simp [capacity, lowBytes, ofLowBytes] at h ⊢; omega
  | succ width ih =>
    have hdiv : n / 256 < capacity width := Nat.div_lt_of_lt_mul h
    simp only [lowBytes, ofLowBytes, ih hdiv, UInt8.toNat_ofNat']
    omega

theorem lowBytes_ofLowBytes (bytes : List UInt8) :
    lowBytes bytes.length (ofLowBytes bytes) = bytes := by
  induction bytes with
  | nil => rfl
  | cons b rest ih =>
    have hb : b.toNat < 256 := b.toNat_lt
    have hdiv : (b.toNat + 256 * ofLowBytes rest) / 256 = ofLowBytes rest := by omega
    simp only [List.length_cons, lowBytes, ofLowBytes, hdiv, ih, List.cons.injEq, and_true]
    apply UInt8.toNat_inj.1
    simp only [UInt8.toNat_ofNat']
    omega

namespace ByteOrder

/-- The bytes of a number. -/
def bytes (o : ByteOrder) (width n : Nat) : List UInt8 :=
  match o with
  | little => lowBytes width n
  | big => (lowBytes width n).reverse

/-- The number that bytes denote. -/
def number (o : ByteOrder) (bs : List UInt8) : Nat :=
  match o with
  | little => ofLowBytes bs
  | big => ofLowBytes bs.reverse

@[simp] theorem length_bytes (o : ByteOrder) (width n : Nat) :
    (o.bytes width n).length = width := by
  cases o <;> simp [bytes]

theorem number_bytes (o : ByteOrder) {width n : Nat} (h : n < capacity width) :
    o.number (o.bytes width n) = n := by
  cases o <;> simp [bytes, number, ofLowBytes_lowBytes h]

theorem bytes_number (o : ByteOrder) (bs : List UInt8) : o.bytes bs.length (o.number bs) = bs := by
  cases o with
  | little => exact lowBytes_ofLowBytes bs
  | big =>
    have h := lowBytes_ofLowBytes bs.reverse
    rw [List.length_reverse] at h
    simp [bytes, number, h]

end ByteOrder

end WirePlan
