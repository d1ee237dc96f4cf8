import WirePlan.Proofs.Codec.Decoded
import WirePlan.Proofs.Codec.Pieces

/-!
# Values as declared are not refused for what they are

Four errors say that the values are not what the plan declares (`CodecError.IsUndeclared`). Where
all fields on the wire have values, and these are everywhere as declared (`AsDeclared`), no part of
the encoder fails with one of them: constructors and counts are those asked for, structs are in the
plan, and inside them no member is missing (`takesWhole_encodeStruct`, by induction on the nesting).
Elements behind a container are whole structs again, so the levels of indirection go the same way.
-/

namespace WirePlan

/-- The error says that the values are not what the plan declares: one is missing, has another
constructor, names a struct that is not there, or has another number of items than its size field
tells. -/
def CodecError.IsUndeclared : CodecError → Prop
  | .missingValue _ | .typeMismatch .. | .unknownStruct _ | .lengthMismatch (.itemCount ..) => True
  | _ => False

/-- The computation gives what it is to give, or it fails, but not as if the values were not what
the plan declares. -/
structure Takes {α : Type} (x : Except CodecError α) (gives : α → Prop) : Prop where
  ok : ∀ a, x = .ok a → gives a
  error : ∀ e, x = .error e → ¬ e.IsUndeclared

section Takes

variable {α β : Type} {x : Except CodecError α} {gives gives' : α → Prop}

theorem takes_ok {a : α} (h : gives a) : Takes (.ok a) gives where
  ok := by
    rintro _ ⟨⟩
    exact h
  error := by
    rintro _ ⟨⟩

theorem takes_error {e : CodecError} (h : ¬ e.IsUndeclared) : Takes (.error e) gives where
  ok := by
    rintro _ ⟨⟩
  error := by
    rintro _ ⟨⟩
    exact h

theorem Takes.bind (h : Takes x gives) {f : α → Except CodecError β} {gives' : β → Prop}
    (hf : ∀ a, gives a → Takes (f a) gives') : Takes (x >>= f) gives' where
  ok b hb := by
    obtain ⟨a, ha, hb⟩ := bind_eq_ok.1 hb
    exact (hf a (h.ok a ha)).ok b hb
  error e he := by
    rcases bind_eq_error.1 he with he | ⟨a, ha, he⟩
    · exact h.error e he
    · exact (hf a (h.ok a ha)).error e he

theorem takes_mapM {f : α → Except CodecError β} {gives : β → Prop} {xs : List α}
    (h : ∀ x ∈ xs, Takes (f x) gives) : Takes (xs.mapM f) (fun ys => ∀ y ∈ ys, gives y) := by
  induction xs with
  | nil => exact takes_ok fun _ hy => absurd hy List.not_mem_nil
  | cons x xs ih =>
    obtain ⟨hx, hxs⟩ := List.forall_mem_cons.1 h
    rw [List.mapM_cons]
    refine hx.bind fun y hy => (ih hxs).bind fun ys hys => ?_
    exact takes_ok (List.forall_mem_cons.2 ⟨hy, hys⟩)

end Takes

/-- What is everywhere as declared is so at each entry and in the structs of it. -/
theorem declares_of_everywhere {structs : StructLayouts} {fields : List PlacedField}
    {values : Fields} (h : Everywhere structs (AsDeclared structs) fields values) {f : PlacedField}
    (hf : f ∈ fields) {v : Value} (hv : values.find? f.name = some v) :
    Declares structs f values v := by
  obtain ⟨hdeclared, hinside⟩ := throughout_iff.1 h f hf v hv
  refine ⟨hdeclared.admitted, fun items hitems => ?_, fun members hmembers => ?_⟩
  · obtain ⟨size, hsize, hcount⟩ := hdeclared.counted items hitems
    refine Codec.countOf_eq_ok.2 ?_
    rw [Codec.sizeField, hsize, Option.getD_some, hcount]
  · obtain ⟨t, layout, htype, hlayout, hkeys⟩ := hdeclared.typed members hmembers
    exact ⟨t, layout, htype, hlayout, hkeys,
      hinside trivial members hmembers t layout htype hlayout⟩

namespace Codec

variable {c : Codec} {depth : Nat}

/-- The elements of the slots are whole structs of the plan. -/
def WholeBehind (structs : StructLayouts) (pieces : List Piece) : Prop :=
  ∀ p ∈ Piece.pointees pieces, (∃ t, structs t = some p.layout) ∧ Whole structs p.layout p.values

section WholeBehind

variable {structs : StructLayouts}

theorem wholeBehind_ofBytes (bytes : List UInt8) :
    WholeBehind structs (Piece.ofBytes bytes) := by
  intro p hp
  rw [Piece.pointees_ofBytes] at hp
  cases hp

theorem wholeBehind_nil : WholeBehind structs [] := wholeBehind_ofBytes []

theorem WholeBehind.append {xs ys : List Piece} (hx : WholeBehind structs xs)
    (hy : WholeBehind structs ys) : WholeBehind structs (xs ++ ys) := by
  intro p hp
  rw [Piece.pointees_append] at hp
  exact (List.mem_append.1 hp).elim (hx p) (hy p)

end WholeBehind

/-! ## Values -/

theorem takes_encode_element {e : Element} {order : ByteOrder} {field : String}
    {lengthFormat : IntFormat} {v : Value} (h : e.Admits v) :
    Takes (e.encode order field lengthFormat v) (fun _ => True) := by
  cases e with
  | int i =>
    cases v with
    | int j word =>
      cases (h : i = j)
      rw [Element.encode, if_pos rfl]
      exact takes_ok trivial
    | uuid | string | ipv4 | ipv6 | array | struct => cases h
  | uuid | ipv4 | ipv6 =>
    cases v <;> first | exact takes_ok trivial | cases h
  | string =>
    cases v with
    | string s =>
      rw [Element.encode]
      split
      · exact takes_ok trivial
      · exact takes_error id
    | int | uuid | ipv4 | ipv6 | array | struct => cases h

/-- Whole structs of the plan are taken, and what stands behind them is whole. -/
def TakesWhole (c : Codec) (inner : StructEncoder) : Prop :=
  ∀ ⦃t layout⦄, c.plan.struct? t = some layout → ∀ members, Whole c.plan.struct? layout members →
    ∀ start, Takes (inner layout members start) (WholeBehind c.plan.struct?)

section Values

variable {inner : StructEncoder} {f : PlacedField} {t : String} {layout : StructLayout}

/-- The items of an array of structs are whole structs of its type. -/
theorem isStruct_of_declares {siblings : Fields} {items : List Value}
    (h : Declares c.plan.struct? f siblings (.array items))
    (hformat : f.format = .structArray ∨ f.format = .refStructArray)
    (htype : f.structType? = some t) (ht : c.plan.struct? t = some layout) :
    ∀ item ∈ items, IsStruct (Whole c.plan.struct? layout) item := by
  intro item hitem
  obtain ⟨members, rfl⟩ : ∃ members, item = .struct members := by
    have hadmitted := h.admitted
    rcases hformat with heq | heq
    all_goals
      rw [heq] at hadmitted
      exact hadmitted item hitem
  obtain ⟨t', layout', htype', ht', hwhole⟩ :=
    h.structs members (Value.mem_structs.2 (.inr ⟨items, rfl, hitem⟩))
  cases htype.symm.trans htype'
  cases ht.symm.trans ht'
  exact ⟨members, rfl, hwhole⟩

theorem takes_encodeStructs (hinner : TakesWhole c inner) (ht : c.plan.struct? t = some layout)
    (field : String) {items : List Value}
    (hitems : ∀ item ∈ items, IsStruct (Whole c.plan.struct? layout) item) (start : Nat) :
    Takes (encodeStructs inner field layout start items) (WholeBehind c.plan.struct?) := by
  induction items generalizing start with
  | nil => exact takes_ok wholeBehind_nil
  | cons item rest ih =>
    obtain ⟨⟨members, rfl, hwhole⟩, hrest⟩ := List.forall_mem_cons.1 hitems
    refine (hinner ht members hwhole start).bind fun pieces hpieces => ?_
    refine (ih hrest (start + Piece.size pieces)).bind fun others hothers => ?_
    exact takes_ok (hpieces.append hothers)

/-- The slots for whole structs have whole structs behind them. -/
theorem takes_encodeSlots (ht : c.plan.struct? t = some layout) (field : String)
    {items : List Value} (hitems : ∀ item ∈ items, IsStruct (Whole c.plan.struct? layout) item) :
    Takes (items.mapM (encodeSlot field layout depth)) (WholeBehind c.plan.struct?) := by
  induction items with
  | nil => exact takes_ok wholeBehind_nil
  | cons item rest ih =>
    obtain ⟨⟨members, rfl, hwhole⟩, hrest⟩ := List.forall_mem_cons.1 hitems
    rw [List.mapM_cons]
    refine (ih hrest).bind fun slots hslots => takes_ok ?_
    exact List.forall_mem_cons.2 ⟨⟨⟨t, ht⟩, hwhole⟩, hslots⟩

/-- **A value as declared is taken**, if structs are. -/
theorem takes_encodeValue (hinner : TakesWhole c inner) {size : WireSize}
    (hsized : SizeFits c.plan.struct? f.toField size) {siblings : Fields} {v : Value}
    (h : Declares c.plan.struct? f siblings v) (start : Nat) :
    Takes (encodeValue c inner depth f siblings start v) (WholeBehind c.plan.struct?) := by
  cases hscalar : f.format.scalar? with
  | some e =>
    rw [encodeValue, hscalar]
    have hadmits := (Format.admits_of_scalar? hscalar).1 h.admitted
    exact (takes_encode_element hadmits).bind fun bytes _ => takes_ok (wholeBehind_ofBytes bytes)
  | none =>
    cases harray : f.format.isArray with
    | true =>
      obtain ⟨items, rfl⟩ := h.admitted.exists_items harray
      have hcount : requireCount f items.length siblings = .ok () := by
        rw [requireCount, h.counted items rfl]
        exact if_pos rfl
      rw [encodeValue, hscalar]
      dsimp only
      rw [if_pos harray, show (Value.array items).items? = some items from rfl]
      dsimp only
      rw [hcount]
      show Takes (encodeItems c inner depth f start items) _
      rcases format_of_isArray harray with ⟨e, hformat⟩ | hformat | hformat
      · have hadmits := h.admitted
        rw [hformat] at hadmits
        rw [encodeItems, hformat]
        refine Takes.bind (takes_mapM fun item hitem => takes_encode_element (hadmits item hitem))
          fun parts _ => ?_
        exact takes_ok (wholeBehind_ofBytes parts.flatten)
      · obtain ⟨t, layout, htype, ht⟩ := hsized.exists_layout (by rw [hformat]; rfl)
        have hstructs := isStruct_of_declares h (.inl hformat) htype ht
        rw [encodeItems, hformat]
        dsimp only
        rw [structOf_eq_ok.2 ⟨t, htype, ht⟩]
        exact takes_encodeStructs hinner ht f.name hstructs start
      · obtain ⟨t, layout, htype, ht⟩ := hsized.exists_layout (by rw [hformat]; rfl)
        have hstructs := isStruct_of_declares h (.inr hformat) htype ht
        rw [encodeItems, hformat]
        dsimp only
        rw [structOf_eq_ok.2 ⟨t, htype, ht⟩]
        exact takes_encodeSlots ht f.name hstructs
    | false =>
      obtain ⟨members, rfl⟩ := h.admitted.exists_members (format_of_single hscalar harray)
      obtain ⟨t, layout, htype, ht, hwhole⟩ := h.structs members (List.mem_singleton_self _)
      rw [encodeValue, hscalar]
      dsimp only
      rw [harray, if_neg Bool.false_ne_true,
        show (Value.struct members).fields? = some members from rfl]
      dsimp only
      rw [structOf_eq_ok.2 ⟨t, htype, ht⟩]
      exact hinner ht members hwhole start

end Values

/-! ## Fields -/

/-- Presence fails to be decided for another reason. -/
theorem takes_allHold (ps : List Prerequisite) (values : Fields) :
    Takes (Prerequisite.allHold ps values)
      (fun holds => Prerequisite.allHold ps values = .ok holds) where
  ok _ h := h
  error e h := by
    obtain ⟨p, -, rfl⟩ := exists_of_allHold_eq_error h
    exact id

theorem takes_checkPlace (field : String) (expected : Option Nat) (actual : Nat) :
    Takes (checkPlace field expected actual) (fun _ => True) := by
  unfold checkPlace
  split
  · exact takes_ok trivial
  · exact takes_error id

theorem takes_encodeHeader (f : PlacedField) (bytes : Nat) :
    Takes (encodeHeader c f bytes) (fun _ => True) := by
  unfold encodeHeader
  split
  · exact takes_ok trivial
  · split
    · exact takes_ok trivial
    · exact takes_error id

/-- **Fields as declared are taken**, if those on the wire have values. -/
theorem takes_encodeFields {inner : StructEncoder} (hinner : TakesWhole c inner)
    {fields : List PlacedField} {values : Fields}
    (hsized : ∀ f ∈ fields, SizeFits c.plan.struct? f.toField f.size)
    (hpresent : ∀ f ∈ fields, Prerequisite.allHold f.prerequisites values = .ok true →
      f.name ∈ Keyed.keys values)
    (hdeclares : ∀ f ∈ fields, ∀ v, values.find? f.name = some v →
      Declares c.plan.struct? f values v)
    (base : Nat) (endOffset : Offset) (place : Nat) (known : Known) :
    Takes (encodeFields c inner depth values base endOffset place known fields)
      (WholeBehind c.plan.struct?) := by
  induction fields generalizing place known with
  | nil =>
    rw [encodeFields]
    exact (takes_checkPlace _ _ _).bind fun _ _ => takes_ok wholeBehind_nil
  | cons f rest ih =>
    obtain ⟨hsize, hsized⟩ := List.forall_mem_cons.1 hsized
    obtain ⟨hkey, hpresent⟩ := List.forall_mem_cons.1 hpresent
    obtain ⟨hvalue, hdeclares⟩ := List.forall_mem_cons.1 hdeclares
    rw [encodeFields]
    refine (takes_allHold f.prerequisites values).bind fun holds hholds => ?_
    cases holds with
    | false => exact ih hsized hpresent hdeclares place _
    | true =>
      obtain ⟨v, hv⟩ := Option.isSome_iff_exists.1 (Keyed.isSome_find?.2 (hkey hholds))
      rw [if_pos rfl, hv]
      refine (takes_checkPlace _ _ _).bind fun _ _ => ?_
      refine (takes_encodeValue hinner hsize (hvalue v hv) _).bind fun pieces hpieces => ?_
      refine (takes_encodeHeader f _).bind fun header _ => ?_
      refine (ih hsized hpresent hdeclares _ _).bind fun others hothers => ?_
      exact takes_ok (((wholeBehind_ofBytes header).append hpieces).append hothers)

/-! ## Structs and levels -/

section Plan

variable (hplan : c.plan.WellFormed)

include hplan

/-- **Whole structs are taken.** The induction is on how deep structs nest. -/
theorem takesWhole_encodeStruct (depth : Nat) : TakesWhole c (encodeStruct c depth) := by
  induction depth with
  | zero => exact fun _ _ _ _ _ _ => takes_error id
  | succ depth ih =>
    intro t layout ht members hwhole start
    have hlayout := (hplan.structs ht).members
    exact takes_encodeFields ih hlayout.sized
      (fun f hf _ => (hwhole.keys f.name).2 (List.mem_map_of_mem hf))
      (fun f hf v hv => declares_of_everywhere hwhole.everywhere hf hv) start _ start _

theorem takes_encodePointees {ps : List Pointee}
    (hps : ∀ p ∈ ps, (∃ t, c.plan.struct? t = some p.layout) ∧
      Whole c.plan.struct? p.layout p.values) (start : Nat) :
    Takes (encodePointees c start ps) (fun found => WholeBehind c.plan.struct? found.2) := by
  induction ps generalizing start with
  | nil => exact takes_ok wholeBehind_nil
  | cons p ps ih =>
    obtain ⟨⟨⟨t, ht⟩, hwhole⟩, hrest⟩ := List.forall_mem_cons.1 hps
    unfold encodePointees
    split
    · refine (takesWhole_encodeStruct hplan p.depth ht p.values hwhole start).bind
        fun pieces hpieces => ?_
      refine (ih hrest (start + Piece.size pieces)).bind fun found hfound => ?_
      exact takes_ok (hpieces.append hfound)
    · exact takes_error id

theorem takes_encodeLevels {levels : Nat} {ps : List Pointee}
    (hps : ∀ p ∈ ps, (∃ t, c.plan.struct? t = some p.layout) ∧
      Whole c.plan.struct? p.layout p.values) (start : Nat) :
    Takes (encodeLevels c levels start ps) (fun _ => True) := by
  induction levels generalizing start ps with
  | zero =>
    cases ps with
    | nil => exact takes_ok trivial
    | cons p ps => exact takes_error id
  | succ levels ih =>
    cases ps with
    | nil => exact takes_ok trivial
    | cons p ps =>
      refine (takes_encodePointees hplan hps start).bind fun found hbehind => ?_
      refine (ih hbehind (start + Piece.size found.2)).bind fun _ _ => ?_
      exact takes_ok trivial

/-- **A container of values as declared is taken**, if the fields on the wire have values. -/
theorem takes_encode {m : MessageLayout} (hm : m ∈ c.plan.messages) {container : ContainerLayout}
    (hcontainer : container ∈ m.containers) {values : Fields}
    (hpresent : ∀ f ∈ container.fields, Prerequisite.allHold f.prerequisites values = .ok true →
      f.name ∈ Keyed.keys values)
    (hdeclared : Everywhere c.plan.struct? (AsDeclared c.plan.struct?) container.fields values) :
    Takes (encode c container values) (fun _ => True) := by
  have hsized := (hplan.containers m hm container hcontainer).sized
  refine (takes_encodeFields (takesWhole_encodeStruct hplan _) hsized hpresent
    (fun f hf v hv => declares_of_everywhere hdeclared hf hv) 0 _ 0 _).bind fun inline hinline => ?_
  refine (takes_encodeLevels hplan hinline _).bind fun _ _ => ?_
  exact takes_ok trivial

end Plan

end Codec

end WirePlan
