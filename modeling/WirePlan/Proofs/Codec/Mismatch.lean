import WirePlan.Proofs.Codec.Steps

/-!
# Where the encoder can find a mismatch

The encoder compares its place with the plan before each field and at the end of each list, and at
no other point: values without parts, counts and headers fail in other ways. As it only moves
forward, a mismatch that it finds is at the place where it started or further on
(`mismatchFrom_start`, `mismatchFrom_encodeStruct`).
-/

namespace WirePlan.Codec

variable {α β : Type} {n : Nat} {x : Except CodecError α}

/-- If the computation fails as a field does not stand where the plan says, then the encoder has
come as far as the place given. -/
def MismatchFrom (place : Nat) (x : Except CodecError α) : Prop :=
  ∀ (field : String) (expected : Option Nat) (actual : Nat),
    x = .error (.layoutMismatch field expected actual) → place ≤ actual

theorem MismatchFrom.mono {m : Nat} (h : MismatchFrom n x) (hle : m ≤ n) : MismatchFrom m x :=
  fun field expected actual hx => Nat.le_trans hle (h field expected actual hx)

theorem mismatchFrom_ok (a : α) : MismatchFrom n (.ok a) := fun _ _ _ h => nomatch h

theorem MismatchFrom.bind {f : α → Except CodecError β} (hx : MismatchFrom n x)
    (hf : ∀ a, x = .ok a → MismatchFrom n (f a)) : MismatchFrom n (x >>= f) := by
  cases x with
  | ok a => exact hf a rfl
  | error e =>
    intro field expected actual h
    cases h
    exact hx field expected actual rfl

theorem MismatchFrom.mapM {f : α → Except CodecError β} {xs : List α}
    (h : ∀ x ∈ xs, MismatchFrom n (f x)) : MismatchFrom n (xs.mapM f) := by
  induction xs with
  | nil => exact mismatchFrom_ok []
  | cons x xs ih =>
    rw [List.mapM_cons]
    refine (h x (.head _)).bind fun _ _ => ?_
    refine (ih fun y hy => h y (.tail _ hy)).bind fun _ _ => ?_
    exact mismatchFrom_ok _

/-! ## What is not compared with the plan -/

theorem mismatchFrom_allHold (ps : List Prerequisite) (values : Fields) :
    MismatchFrom n (Prerequisite.allHold ps values) := by
  intro field expected actual h
  obtain ⟨p, -, he⟩ := exists_of_allHold_eq_error h
  cases he

theorem mismatchFrom_encode (e : Element) (order : ByteOrder) (field : String)
    (lengthFormat : IntFormat) (value : Value) :
    MismatchFrom n (e.encode order field lengthFormat value) := by
  intro _ _ _ h
  unfold Element.encode at h
  split at h
  · split at h <;> cases h
  · cases h
  · cases h
  · cases h
  · dsimp only at h
    split at h <;> cases h
  · cases h

theorem mismatchFrom_countOf (f : PlacedField) (siblings : Fields) :
    MismatchFrom n (countOf f siblings) := by
  intro _ _ _ h
  unfold countOf at h
  split at h <;> cases h

theorem mismatchFrom_requireCount (f : PlacedField) (items : Nat) (siblings : Fields) :
    MismatchFrom n (requireCount f items siblings) := by
  refine (mismatchFrom_countOf f siblings).bind fun count _ => ?_
  intro _ _ _ h
  split at h <;> cases h

theorem mismatchFrom_structOf (c : Codec) (f : PlacedField) : MismatchFrom n (c.structOf f) := by
  intro _ _ _ h
  unfold structOf at h
  split at h
  · cases h
  · split at h <;> cases h

theorem mismatchFrom_encodeSlot (field : String) (layout : StructLayout) (depth : Nat)
    (item : Value) : MismatchFrom n (encodeSlot field layout depth item) := by
  intro _ _ _ h
  unfold encodeSlot at h
  split at h <;> cases h

theorem mismatchFrom_encodeHeader (c : Codec) (f : PlacedField) (bytes : Nat) :
    MismatchFrom n (encodeHeader c f bytes) := by
  intro _ _ _ h
  unfold encodeHeader at h
  split at h
  · cases h
  · split at h <;> cases h

/-! ## Values -/

section Value

variable {c : Codec} {inner : StructEncoder} {depth start : Nat}
  (hinner : ∀ {t : String} {layout : StructLayout}, c.plan.struct? t = some layout →
    ∀ (values : Fields) (place : Nat), start ≤ place → MismatchFrom n (inner layout values place))

include hinner

theorem mismatchFrom_encodeStructs {t : String} {layout : StructLayout}
    (hlayout : c.plan.struct? t = some layout) (field : String) {place : Nat}
    (hplace : start ≤ place) (items : List Value) :
    MismatchFrom n (encodeStructs inner field layout place items) := by
  induction items generalizing place with
  | nil => exact mismatchFrom_ok []
  | cons item rest ih =>
    unfold encodeStructs
    split
    · exact fun _ _ _ h => nomatch h
    · next m _ =>
      refine (hinner hlayout m place hplace).bind fun pieces _ => ?_
      refine (ih (Nat.le_trans hplace (Nat.le_add_right _ _))).bind fun _ _ => ?_
      exact mismatchFrom_ok _

/-- A value is compared with the plan in the structs inside it only. -/
theorem mismatchFrom_encodeValue (f : PlacedField) (siblings : Fields) (value : Value) :
    MismatchFrom n (encodeValue c inner depth f siblings start value) := by
  unfold encodeValue
  split
  · next e _ =>
    exact (mismatchFrom_encode e c.order f.name f.lengthFormat value).bind
      fun _ _ => mismatchFrom_ok _
  · split
    · split
      · exact fun _ _ _ h => nomatch h
      · next items _ =>
        refine (mismatchFrom_requireCount f items.length siblings).bind fun _ _ => ?_
        unfold encodeItems
        split
        · next e _ =>
          exact (MismatchFrom.mapM fun item _ =>
            mismatchFrom_encode e c.order f.name f.lengthFormat item).bind
              fun _ _ => mismatchFrom_ok _
        · refine (mismatchFrom_structOf c f).bind fun layout hlayout => ?_
          obtain ⟨t, -, ht⟩ := structOf_eq_ok.1 hlayout
          exact mismatchFrom_encodeStructs hinner ht f.name (Nat.le_refl start) items
        · refine (mismatchFrom_structOf c f).bind fun layout _ => ?_
          exact MismatchFrom.mapM fun item _ => mismatchFrom_encodeSlot f.name layout depth item
    · split
      · exact fun _ _ _ h => nomatch h
      · next m _ =>
        refine (mismatchFrom_structOf c f).bind fun layout hlayout => ?_
        obtain ⟨t, -, ht⟩ := structOf_eq_ok.1 hlayout
        exact hinner ht m start (Nat.le_refl start)

end Value

/-! ## Lists of fields -/

section Fields

variable {c : Codec} {inner : StructEncoder} {depth base : Nat} {values : Fields}
  {endOffset : Offset}

/-- A mismatch at the end of a list or before a field is at the encoder's place. -/
theorem mismatchFrom_checkPlace (field : String) (expected : Option Nat) (actual : Nat) :
    MismatchFrom actual (checkPlace field expected actual) := by
  intro _ _ _ h
  unfold checkPlace at h
  split at h
  · cases h
  · cases h
    exact Nat.le_refl actual

/-- **The encoder only moves forward**, from field to field. -/
theorem mismatchFrom_start
    (hinner : ∀ (layout : StructLayout) (values : Fields) (start : Nat),
      MismatchFrom start (inner layout values start)) {place : Nat} {known : Known}
    {fields : List PlacedField} :
    MismatchFrom place
      (encodeFields c inner depth values base endOffset place known fields) := by
  induction fields generalizing place known with
  | nil =>
    exact (mismatchFrom_checkPlace _ _ place).bind fun _ _ => mismatchFrom_ok _
  | cons f rest ih =>
    unfold encodeFields
    refine (mismatchFrom_allHold f.prerequisites values).bind fun holds _ => ?_
    dsimp only
    split
    · split
      · exact fun _ _ _ h => nomatch h
      · next value _ =>
        have hle : place ≤ place + if f.header = 0 then 0 else headerSize := Nat.le_add_right _ _
        refine ((mismatchFrom_checkPlace _ _ _).mono hle).bind fun _ _ => ?_
        refine (mismatchFrom_encodeValue (fun _ m start hstart =>
          (hinner _ m start).mono (Nat.le_trans hle hstart)) f values value).bind fun pieces _ => ?_
        refine (mismatchFrom_encodeHeader c f _).bind fun _ _ => ?_
        refine (ih.mono (Nat.le_trans hle (Nat.le_add_right _ _))).bind fun _ _ => ?_
        exact mismatchFrom_ok _
    · exact ih

/-- **The encoder only moves forward**, through structs of every depth. -/
theorem mismatchFrom_encodeStruct (depth : Nat) (layout : StructLayout) (values : Fields)
    (start : Nat) : MismatchFrom start (encodeStruct c depth layout values start) := by
  induction depth generalizing layout values start with
  | zero => exact fun _ _ _ h => nomatch h
  | succ depth ih => exact mismatchFrom_start ih

end Fields

end WirePlan.Codec
