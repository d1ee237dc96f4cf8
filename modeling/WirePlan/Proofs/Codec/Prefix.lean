import WirePlan.Proofs.Codec.Scalar
import WirePlan.Proofs.Codec.Steps

/-!
# More bytes behind

A decoder asks for bytes at places, and an answer is the same if more bytes stand behind them
(`Held.mono`). The end of the data matters only where there is no answer: a read past it, and a
string that is longer than what is left, are errors. So everything that is decoded from some bytes
is decoded from them with more behind (`persists_decodeStruct`), and two decodes that succeed, one
of a prefix of the other's bytes, give the same (`decode_append`).
-/

namespace WirePlan

/-- Where the first computation succeeds, the second gives the same. -/
def Persists {α : Type} (x y : Except CodecError α) : Prop :=
  ∀ a, x = .ok a → y = .ok a

section Persists

variable {α β : Type} {x y : Except CodecError α}

theorem persists_refl (x : Except CodecError α) : Persists x x := fun _ => id

theorem Persists.bind (h : Persists x y) {f g : α → Except CodecError β}
    (hf : ∀ a, Persists (f a) (g a)) : Persists (x >>= f) (y >>= g) := by
  intro b hb
  obtain ⟨a, ha, hb⟩ := bind_eq_ok.1 hb
  exact bind_eq_ok.2 ⟨a, h a ha, hf a b hb⟩

theorem Persists.bind_const (h : Persists x y) (f : α → Except CodecError β) :
    Persists (x >>= f) (y >>= f) :=
  h.bind fun _ => persists_refl _

end Persists

/-! ## Reads -/

section Reading

variable {data whole : Array UInt8} (hmore : data.toList <+: whole.toList)

include hmore

/-- Bytes stand where they stood. -/
theorem Held.mono {place : Nat} {bytes : List UInt8} (h : Held data place bytes) :
    Held whole place bytes := by
  obtain ⟨hplace, hbytes⟩ := h
  have hsize : data.size ≤ whole.size := hmore.length_le
  obtain ⟨rest, hrest⟩ := hmore
  refine ⟨Nat.le_trans hplace hsize, ?_⟩
  rw [← hrest, List.drop_append_of_le_length hplace]
  exact hbytes.trans (List.prefix_append _ _)

theorem persists_readBytes (place count : Nat) :
    Persists (readBytes data place count) (readBytes whole place count) := by
  intro bytes h
  obtain ⟨hheld, hlength⟩ := readBytes_eq_ok.1 h
  exact readBytes_eq_ok.2 ⟨hheld.mono hmore, hlength⟩

theorem persists_readNumber (order : ByteOrder) (place width : Nat) :
    Persists (readNumber order data place width) (readNumber order whole place width) :=
  (persists_readBytes hmore place width).bind_const _

theorem persists_readOctets (place count : Nat) :
    Persists (readOctets data place count) (readOctets whole place count) :=
  (persists_readBytes hmore place count).bind_const _

namespace Element

variable (order : ByteOrder) (lengthFormat : IntFormat)

theorem persists_decode (e : Element) (cur : Cursor) :
    Persists (e.decode order data lengthFormat cur) (e.decode order whole lengthFormat cur) := by
  cases e with
  | int i => exact (persists_readNumber hmore order _ _).bind_const _
  | uuid | ipv4 | ipv6 => exact (persists_readOctets hmore _ _).bind_const _
  | string =>
    refine (persists_readNumber hmore order _ _).bind fun length result h => ?_
    dsimp only at h ⊢
    split at h
    · cases h
    · next hleft =>
      obtain ⟨bytes, hbytes, h⟩ := bind_eq_ok.1 h
      have hread := persists_readBytes hmore _ _ _ hbytes
      -- There are at least as many bytes left as were read.
      have hinside := (readBytes_eq_ok.1 hread).1.le_size
      rw [(readBytes_eq_ok.1 hread).2] at hinside
      rw [if_neg (by omega)]
      exact bind_eq_ok.2 ⟨bytes, hread, h⟩

theorem persists_decodeMany (e : Element) (count : Nat) (cur : Cursor) (done : List Value) :
    Persists (e.decodeMany order data lengthFormat count cur done)
      (e.decodeMany order whole lengthFormat count cur done) := by
  induction count generalizing cur done with
  | zero => exact persists_refl _
  | succ count ih =>
    intro result h
    rw [decodeMany] at h ⊢
    split at h
    · next v next hnext =>
      rw [persists_decode hmore order lengthFormat e cur _ hnext]
      exact ih next (v :: done) result h
    · cases h

end Element

/-! ## Values and fields -/

namespace Codec

theorem persists_readSlots (order : ByteOrder) (count position : Nat) (done : List Nat) :
    Persists (readSlots order data count position done)
      (readSlots order whole count position done) := by
  induction count generalizing position done with
  | zero => exact persists_refl _
  | succ count ih =>
    intro result h
    rw [readSlots] at h ⊢
    split at h
    · next n hn =>
      rw [persists_readNumber hmore order _ _ _ hn]
      exact ih _ _ result h
    · cases h

theorem persists_decodeHeader (c : Codec) (f : PlacedField) (position : Nat) :
    Persists (decodeHeader c data f position) (decodeHeader c whole f position) := by
  unfold decodeHeader
  split
  · exact persists_refl _
  · refine (persists_readNumber hmore c.order _ _).bind fun tag => ?_
    dsimp only
    split
    · exact (persists_readNumber hmore c.order _ _).bind_const _
    · exact persists_refl _

section Structs

variable (c : Codec) {inner inner' : StructDecoder}
  (hinner : ∀ layout start cur, Persists (inner layout start cur) (inner' layout start cur))

include hinner

omit hmore in
theorem persists_decodeInline (layout : StructLayout) (cur : Cursor) :
    Persists (decodeInline inner layout cur) (decodeInline inner' layout cur) :=
  (hinner layout _ cur).bind_const _

omit hmore in
theorem persists_decodeStructs (layout : StructLayout) (count : Nat) (cur : Cursor)
    (done : List Value) :
    Persists (decodeStructs inner layout count cur done)
      (decodeStructs inner' layout count cur done) := by
  induction count generalizing cur done with
  | zero => exact persists_refl _
  | succ count ih =>
    intro result h
    rw [decodeStructs] at h ⊢
    split at h
    · next v next hnext =>
      rw [persists_decodeInline hinner layout cur _ hnext]
      exact ih next (v :: done) result h
    · cases h

omit hmore in
theorem persists_decodePointees (layout : StructLayout) (places : List Nat) (cur : Cursor)
    (done : List Value) :
    Persists (decodePointees inner layout places cur done)
      (decodePointees inner' layout places cur done) := by
  induction places generalizing cur done with
  | nil => exact persists_refl _
  | cons place places ih =>
    intro result h
    rw [decodePointees] at h ⊢
    split at h
    · next values size next hnext =>
      rw [hinner layout place cur _ hnext]
      exact ih next (.struct values :: done) result h
    · cases h

theorem persists_decodeItems (f : PlacedField) (count : Nat) (cur : Cursor) :
    Persists (decodeItems c data inner f count cur) (decodeItems c whole inner' f count cur) := by
  unfold decodeItems
  split
  · exact Element.persists_decodeMany hmore c.order f.lengthFormat _ count cur []
  · exact (persists_refl _).bind fun layout => persists_decodeStructs hinner layout count cur []
  · exact (persists_refl _).bind fun layout => (persists_readSlots hmore c.order _ _ _).bind
      fun slots => (persists_decodePointees hinner layout _ _ _).bind_const _

theorem persists_decodeValue (f : PlacedField) (seen : Fields) (cur : Cursor) :
    Persists (decodeValue c data inner f seen cur) (decodeValue c whole inner' f seen cur) := by
  unfold decodeValue
  split
  · exact Element.persists_decode hmore c.order f.lengthFormat _ cur
  · split
    · exact (persists_refl _).bind fun count =>
        (persists_decodeItems hmore c hinner f count cur).bind_const _
    · exact (persists_refl _).bind fun layout => persists_decodeInline hinner layout cur

theorem persists_decodeFields (base : Nat) (endOffset : Offset) (fields : List PlacedField)
    (seen : Fields) (known : Known) (cur : Cursor) :
    Persists (decodeFields c data inner base endOffset seen known cur fields)
      (decodeFields c whole inner' base endOffset seen known cur fields) := by
  induction fields generalizing seen known cur with
  | nil => exact persists_refl _
  | cons f rest ih =>
    intro result h
    rcases decodeFields_cons_eq_ok.1 h with ⟨habsent, h⟩ | ⟨hpresent, offset, declared?, value,
      after, heval, hdeclared, hvalue, hlength, h⟩
    · exact decodeFields_cons_eq_ok.2 (.inl ⟨habsent, ih _ _ _ result h⟩)
    · exact decodeFields_cons_eq_ok.2 (.inr ⟨hpresent, offset, declared?, value, after, heval,
        persists_decodeHeader hmore c f _ _ hdeclared,
        persists_decodeValue hmore c hinner f seen _ _ hvalue, hlength, ih _ _ _ result h⟩)

end Structs

/-- **A struct is decoded the same with more bytes behind.** The induction is on how deep structs
nest. -/
theorem persists_decodeStruct (c : Codec) (depth : Nat) (layout : StructLayout) (start : Nat)
    (cur : Cursor) :
    Persists (decodeStruct c data depth layout start cur)
      (decodeStruct c whole depth layout start cur) := by
  induction depth generalizing layout start cur with
  | zero => exact persists_refl _
  | succ depth ih => exact persists_decodeFields hmore c ih _ _ _ _ _ _

end Codec

end Reading

namespace Codec

variable {c : Codec} {container : ContainerLayout} {bytes : List UInt8}

/-- A container is read the same with more bytes behind. -/
theorem persists_read {whole : List UInt8} (hmore : bytes <+: whole) :
    Persists (c.read container bytes) (c.read container whole) := by
  have hdata : bytes.toArray.toList <+: whole.toArray.toList := hmore
  exact persists_decodeFields hdata c (persists_decodeStruct hdata c c.nesting) _ _ _ _ _ _

/-- **What is decoded does not depend on the bytes behind it.** -/
theorem decode_append {result : Fields × Nat} (h : c.decode container bytes = .ok result)
    (rest : List UInt8) : c.decode container (bytes ++ rest) = .ok result :=
  (persists_read (List.prefix_append bytes rest)).bind_const _ result h

end Codec

end WirePlan
