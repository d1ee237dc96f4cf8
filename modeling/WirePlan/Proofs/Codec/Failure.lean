import WirePlan.Proofs.Codec.Steps

/-!
# How a decoder can fail

Three errors say that plan and decoder disagree (`CodecError.IsInternal`). What reads bytes, counts
elements or decides presence never fails so, and a decoder of structs is asked only where structs
are: for the first items of an array those before are decoded already (`plain_decodeStructs`,
`plain_decodePointees`).
-/

namespace WirePlan

/-- The error says that plan and decoder disagree. -/
def CodecError.IsInternal : CodecError → Prop
  | .layoutMismatch .. | .unknownStruct _ | .nestingTooDeep => True
  | _ => False

/-- If the computation fails, then not as if plan and decoder disagreed. -/
def Plain {α : Type} (x : Except CodecError α) : Prop :=
  ∀ e, x = .error e → ¬ e.IsInternal

section Plain

variable {α β : Type} {x : Except CodecError α}

theorem plain_ok (a : α) : Plain (.ok a : Except CodecError α) := fun _ h => nomatch h

theorem plain_error {e : CodecError} (h : ¬ e.IsInternal) :
    Plain (.error e : Except CodecError α) := by
  rintro _ ⟨⟩
  exact h

theorem Plain.bind {f : α → Except CodecError β} (hx : Plain x)
    (hf : ∀ a, x = .ok a → Plain (f a)) : Plain (x >>= f) := by
  intro e h
  rcases bind_eq_error.1 h with h | ⟨a, ha, h⟩
  · exact hx e h
  · exact hf a ha e h

end Plain

theorem Prerequisite.plain_allHold (ps : List Prerequisite) (values : Fields) :
    Plain (allHold ps values) := by
  intro e h
  obtain ⟨p, -, rfl⟩ := Codec.exists_of_allHold_eq_error h
  exact id

section Reading

variable {order : ByteOrder} {data : Array UInt8}

theorem plain_readBytes (position count : Nat) : Plain (readBytes data position count) := by
  unfold readBytes
  split
  · exact plain_ok _
  · exact plain_error id

theorem plain_readNumber (position width : Nat) : Plain (readNumber order data position width) :=
  (plain_readBytes position width).bind fun _ _ => plain_ok _

theorem plain_readOctets (position count : Nat) : Plain (readOctets data position count) := by
  refine (plain_readBytes position count).bind fun _ _ => ?_
  split
  · exact plain_ok _
  · exact plain_error id

namespace Element

variable {lengthFormat : IntFormat}

theorem plain_decode (e : Element) (cur : Cursor) :
    Plain (e.decode order data lengthFormat cur) := by
  cases e with
  | int i => exact (plain_readNumber _ _).bind fun _ _ => plain_ok _
  | uuid | ipv4 | ipv6 => exact (plain_readOctets _ _).bind fun _ _ => plain_ok _
  | string =>
    refine (plain_readNumber _ _).bind fun length _ => ?_
    dsimp only
    split
    · exact plain_error id
    · exact (plain_readBytes _ _).bind fun _ _ => plain_ok _

theorem plain_decodeMany (e : Element) (count : Nat) (cur : Cursor) (done : List Value) :
    Plain (e.decodeMany order data lengthFormat count cur done) := by
  induction count generalizing cur done with
  | zero => exact plain_ok _
  | succ count ih =>
    rw [decodeMany]
    split
    · exact ih _ _
    · next e' he => exact plain_error (plain_decode e cur e' he)

end Element

end Reading

namespace Codec

variable {c : Codec} {data : Array UInt8} {inner : StructDecoder} {layout : StructLayout}

theorem plain_countOf (f : PlacedField) (siblings : Fields) : Plain (countOf f siblings) := by
  unfold countOf
  split
  · exact plain_ok _
  · exact plain_error id

theorem plain_readSlots {order : ByteOrder} (count position : Nat) (done : List Nat) :
    Plain (readSlots order data count position done) := by
  induction count generalizing position done with
  | zero => exact plain_ok _
  | succ count ih =>
    rw [readSlots]
    split
    · exact ih _ _
    · next e he => exact plain_error (plain_readNumber _ _ e he)

theorem plain_decodeHeader (f : PlacedField) (position : Nat) :
    Plain (decodeHeader c data f position) := by
  unfold decodeHeader
  split
  · exact plain_ok _
  · refine (plain_readNumber _ _).bind fun _ _ => ?_
    dsimp only
    split
    · exact (plain_readNumber _ _).bind fun _ _ => plain_ok _
    · exact plain_error id

theorem plain_checkHeaderLength (f : PlacedField) (declared? : Option Nat) (taken : Nat) :
    Plain (checkHeaderLength f declared? taken) := by
  unfold checkHeaderLength
  split
  · exact plain_ok _
  · split
    · exact plain_ok _
    · exact plain_error id

theorem plain_decodeInline {cur : Cursor} (h : Plain (inner layout cur.position cur)) :
    Plain (decodeInline inner layout cur) :=
  h.bind fun _ _ => plain_ok _

/-- Structs fail one after the other as each does behind those before it. -/
theorem plain_decodeStructs {count : Nat} {cur : Cursor} {done : List Value}
    (h : ∀ k < count, ∀ before cur', decodeStructs inner layout k cur done = .ok (before, cur') →
      Plain (inner layout cur'.position cur')) :
    Plain (decodeStructs inner layout count cur done) := by
  induction count generalizing cur done with
  | zero => exact plain_ok _
  | succ count ih =>
    have hfirst := plain_decodeInline (h 0 (Nat.succ_pos _) _ _ rfl)
    rw [decodeStructs]
    split
    · next v next hnext =>
      refine ih fun k hk before cur' hbefore => ?_
      refine h (k + 1) (Nat.succ_lt_succ hk) before cur' ?_
      rw [decodeStructs, hnext]
      exact hbefore
    · next e he => exact plain_error (hfirst e he)

/-- Structs at places fail as each does behind those before it. -/
theorem plain_decodePointees {places : List Nat} {cur : Cursor} {done : List Value}
    (h : ∀ earlier place behind, places = earlier ++ place :: behind →
      ∀ before cur', decodePointees inner layout earlier cur done = .ok (before, cur') →
        Plain (inner layout place cur')) :
    Plain (decodePointees inner layout places cur done) := by
  induction places generalizing cur done with
  | nil => exact plain_ok _
  | cons place places ih =>
    have hfirst := h [] place places rfl _ _ rfl
    rw [decodePointees]
    split
    · next values size next hnext =>
      refine ih fun earlier later behind hplaces before cur' hbefore => ?_
      refine h (place :: earlier) later behind (congrArg (place :: ·) hplaces) before cur' ?_
      rw [decodePointees, hnext]
      exact hbefore
    · next e he => exact plain_error (hfirst e he)

end Codec

end WirePlan
