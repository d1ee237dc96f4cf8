import WirePlan.Proofs.Codec.Scalar
import WirePlan.Proofs.Codec.Steps
import WirePlan.Proofs.Codec.Written

/-!
# Pieces and the elements behind them

Filling slots is done piece by piece (`Piece.fill_append`): the places for the slots of a list of
pieces go to its parts in order. Elements stand when decoding at their places gives what is written
of them (`AllStand`), and the slots of pieces that are filled with these places are read back as
these places (`readSlots_of_fill`), where the elements are then decoded
(`decodePointees_of_allStand`).
-/

namespace WirePlan

namespace Piece

@[simp] theorem size_append (xs ys : List Piece) : size (xs ++ ys) = size xs + size ys := by
  induction xs with
  | nil => simp [size]
  | cons x xs ih => cases x <;> simp [size, ih, Nat.add_assoc]

@[simp] theorem size_ofBytes (bytes : List UInt8) : size (ofBytes bytes) = bytes.length := by
  induction bytes with
  | nil => rfl
  | cons b rest ih =>
    rw [ofBytes, List.map_cons, size, List.length_cons, Nat.add_comm]
    exact congrArg (· + 1) ih

theorem ofBytes_append (xs ys : List UInt8) : ofBytes (xs ++ ys) = ofBytes xs ++ ofBytes ys :=
  List.map_append

@[simp] theorem pointees_append (xs ys : List Piece) :
    pointees (xs ++ ys) = pointees xs ++ pointees ys := by
  induction xs with
  | nil => rfl
  | cons x xs ih => cases x <;> simp [pointees, ih]

@[simp] theorem pointees_ofBytes (bytes : List UInt8) : pointees (ofBytes bytes) = [] := by
  induction bytes with
  | nil => rfl
  | cons b rest ih => exact ih

theorem fill_ofBytes (order : ByteOrder) (places : List Nat) (bytes : List UInt8) :
    fill order places (ofBytes bytes) = bytes := by
  induction bytes with
  | nil => cases places <;> rfl
  | cons b rest ih =>
    rw [ofBytes, List.map_cons]
    cases places <;> exact congrArg (b :: ·) ih

/-- The places for slots go to the parts of a list of pieces in order. -/
theorem fill_append (order : ByteOrder) {places : List Nat} (others : List Nat) {xs : List Piece}
    (h : places.length = (pointees xs).length) (ys : List Piece) :
    fill order (places ++ others) (xs ++ ys) = fill order places xs ++ fill order others ys := by
  induction xs generalizing places with
  | nil =>
    cases places with
    | nil => simp [fill]
    | cons _ _ => cases h
  | cons x xs ih =>
    cases x with
    | byte b => simp [fill, ih h]
    | slot p =>
      cases places with
      | nil => cases h
      | cons place places =>
        have hrest : places.length = (pointees xs).length := Nat.succ.inj h
        simp [fill, ih hrest]

/-- Bytes take no places. -/
theorem fill_ofBytes_append (order : ByteOrder) (places : List Nat) (bytes : List UInt8)
    (pieces : List Piece) :
    fill order places (ofBytes bytes ++ pieces) = bytes ++ fill order places pieces := by
  have hnone : ([] : List Nat).length = (pointees (ofBytes bytes)).length := by
    rw [pointees_ofBytes]
    rfl
  rw [← List.nil_append places, fill_append order places hnone, fill_ofBytes, List.nil_append]

@[simp] theorem length_fill (order : ByteOrder) (places : List Nat) (pieces : List Piece) :
    (fill order places pieces).length = size pieces := by
  induction pieces generalizing places with
  | nil => cases places <;> rfl
  | cons x rest ih =>
    cases x with
    | byte b => cases places <;> simp [fill, size, ih, Nat.add_comm]
    | slot p => cases places <;> simp [fill, size, ih]

end Piece

/-! ## Elements that stand -/

namespace Codec

/-- Decoding at the place gives what is declared of the element's values, and covers the bytes up to
`reach`. -/
def Stands (c : Codec) (data : Array UInt8) (p : Pointee) (place reach : Nat) : Prop :=
  ∀ cur, ∃ size cur', decodeStruct c data p.depth p.layout place cur =
      .ok (declaredFields c.plan.struct? p.layout.members p.values, size, cur') ∧
    cur'.covered = max cur.covered reach

/-- Elements stand each at its place, which a slot can hold, and together they cover the bytes up to
a reach. -/
inductive AllStand (c : Codec) (data : Array UInt8) :
    List Pointee → (places : List Nat) → (reach : Nat) → Prop where
  | nil : AllStand c data [] [] 0
  | cons {p : Pointee} {ps : List Pointee} {place reach others : Nat} {places : List Nat}
      (hslot : place < UInt32.size) (hstands : Stands c data p place reach)
      (hrest : AllStand c data ps places others) :
      AllStand c data (p :: ps) (place :: places) (max reach others)

namespace AllStand

variable {c : Codec} {data : Array UInt8} {ps qs : List Pointee} {places : List Nat} {reach : Nat}

theorem length_eq (h : AllStand c data ps places reach) : places.length = ps.length := by
  induction h with
  | nil => rfl
  | cons _ _ _ ih => exact congrArg (· + 1) ih

theorem nil_inv (h : AllStand c data [] places reach) : places = [] ∧ reach = 0 := by
  cases h
  exact ⟨rfl, rfl⟩

/-- Elements stand as their parts do. -/
theorem append_inv (h : AllStand c data (ps ++ qs) places reach) :
    ∃ places₁ places₂ reach₁ reach₂, places = places₁ ++ places₂ ∧ reach = max reach₁ reach₂ ∧
      AllStand c data ps places₁ reach₁ ∧ AllStand c data qs places₂ reach₂ := by
  induction ps generalizing places reach with
  | nil => exact ⟨[], places, 0, reach, rfl, (Nat.zero_max reach).symm, .nil, h⟩
  | cons p ps ih =>
    cases h with
    | cons hslot hstands hrest =>
      obtain ⟨places₁, places₂, reach₁, reach₂, rfl, rfl, hps, hqs⟩ := ih hrest
      exact ⟨_ :: places₁, places₂, _, reach₂, rfl, (Nat.max_assoc _ _ _).symm,
        .cons hslot hstands hps, hqs⟩

end AllStand

/-! ## Slots -/

/-- Every item has a slot, which holds the item's values. -/
theorem mapM_encodeSlot {field : String} {layout : StructLayout} {depth : Nat} {items : List Value}
    {pieces : List Piece} (h : items.mapM (encodeSlot field layout depth) = .ok pieces) :
    ∃ structs : List Fields, items = structs.map .struct ∧
      pieces = (structs.map fun values => ⟨layout, values, depth⟩).map .slot := by
  induction items generalizing pieces with
  | nil =>
    cases pure_eq_ok.1 h
    exact ⟨[], rfl, rfl⟩
  | cons item items ih =>
    rw [List.mapM_cons] at h
    obtain ⟨piece, hpiece, h⟩ := bind_eq_ok.1 h
    obtain ⟨others, hothers, h⟩ := bind_eq_ok.1 h
    cases pure_eq_ok.1 h
    obtain ⟨structs, rfl, rfl⟩ := ih hothers
    unfold encodeSlot at hpiece
    split at hpiece
    · cases hpiece
    · next values hvalues =>
      cases hpiece
      cases fields?_eq_some.1 hvalues
      exact ⟨values :: structs, rfl, rfl⟩

theorem pointees_slots (elements : List Pointee) :
    Piece.pointees (elements.map .slot) = elements := by
  induction elements with
  | nil => rfl
  | cons p rest ih => exact congrArg (p :: ·) ih

theorem size_slots (elements : List Pointee) :
    Piece.size (elements.map .slot) = Format.slotSize * elements.length := by
  induction elements with
  | nil => rfl
  | cons p rest ih =>
    rw [List.map_cons, Piece.size, ih, List.length_cons, Nat.mul_succ, Nat.add_comm]

variable {c : Codec} {data : Array UInt8} {layout : StructLayout} {depth : Nat}

/-- The places that slots were filled with are read back. -/
theorem readSlots_of_fill {elements : List Pointee} {places : List Nat} {reach start : Nat}
    (hstand : AllStand c data elements places reach)
    (hheld : Held data start (Piece.fill c.order places (elements.map .slot))) (done : List Nat) :
    readSlots c.order data elements.length start done =
      .ok (done.reverse ++ places, start + Format.slotSize * elements.length) := by
  induction elements generalizing places done reach start with
  | nil =>
    obtain ⟨rfl, -⟩ := hstand.nil_inv
    simp [readSlots]
  | cons p elements ih =>
    rw [List.map_cons] at hheld
    cases hstand with
    | @cons _ _ place _ _ places hslot _ hrest =>
      obtain ⟨hfirst, hothers⟩ := held_append.1 hheld
      rw [c.order.length_bytes] at hothers
      have hread : readNumber c.order data start Format.slotSize = .ok place :=
        readNumber_eq_ok.2 ⟨hfirst, hslot⟩
      rw [List.length_cons, readSlots, hread]
      dsimp only
      rw [ih hrest hothers]
      simp [Nat.mul_succ, Nat.add_assoc, Nat.add_comm Format.slotSize]

/-- Elements are decoded where they stand. -/
theorem decodePointees_of_allStand {structs : List Fields} {places : List Nat} {reach : Nat}
    (hstand : AllStand c data (structs.map fun values => ⟨layout, values, depth⟩) places reach)
    (cur : Cursor) (done : List Value) :
    ∃ cur', decodePointees (decodeStruct c data depth) layout places cur done =
        .ok (done.reverse ++ structs.map
          (fun values => .struct (declaredFields c.plan.struct? layout.members values)), cur') ∧
      cur'.covered = max cur.covered reach := by
  induction structs generalizing places reach cur done with
  | nil =>
    obtain ⟨rfl, rfl⟩ := hstand.nil_inv
    exact ⟨cur, by simp [decodePointees], (Nat.max_zero _).symm⟩
  | cons values structs ih =>
    rw [List.map_cons] at hstand
    cases hstand with
    | @cons _ _ place reach others places hslot hstands hrest =>
      obtain ⟨size, next, hnext, hcovered⟩ := hstands cur
      obtain ⟨cur', hcur', hcovered'⟩ := ih hrest next
        (.struct (declaredFields c.plan.struct? layout.members values) :: done)
      refine ⟨cur', ?_, ?_⟩
      · rw [decodePointees, hnext]
        simpa using hcur'
      · rw [hcovered', hcovered, Nat.max_assoc]

end Codec

end WirePlan
