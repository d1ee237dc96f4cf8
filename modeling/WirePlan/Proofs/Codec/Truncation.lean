import WirePlan.Proofs.Codec.Coverage
import WirePlan.Proofs.Codec.Prefix
import WirePlan.Proofs.Codec.Queue
import WirePlan.Proofs.Codec.RoundTrip

/-!
# Truncated encodings

An encoding that was cut off is not decoded. If it were, the whole encoding would be decoded with
the same steps (`Persists`), and the steps that decode an encoding are known: every field of every
list is read where it was put, slots tell where their elements were put, and so every element behind
the container is decoded at its place too (`AllRead`). But a list of fields that is decoded ends
inside the data, or it has no bytes (`inside_of_decodeStruct`). The inline bytes and the elements
stand one behind the other, so the last of them that has bytes ends where the encoding does, which
is past the cut.

The elements read are found by walking through encoder and decoder together, through the structs of
an element by induction on the nesting (`visits`) and through the elements level by level
(`inside_of_encodeLevels`).
-/

namespace WirePlan.Codec

variable {c : Codec} {data whole : Array UInt8} {depth : Nat}

/-! ## Elements that are read -/

/-- The element is decoded at a place. -/
def ReadAt (c : Codec) (data : Array UInt8) (p : Pointee) (place : Nat) : Prop :=
  ∃ cur result, decodeStruct c data p.depth p.layout place cur = .ok result

/-- The elements are decoded each at its place. -/
abbrev AllRead (c : Codec) (data : Array UInt8) (elements : List Pointee) (places : List Nat) :
    Prop :=
  List.Forall₂ (ReadAt c data) elements places

/-- If a struct of this depth is decoded from the data, which begin as those that hold its encoding,
then so are the elements of its slots. -/
def Visits (c : Codec) (data whole : Array UInt8) (depth : Nat) : Prop :=
  ∀ ⦃t layout values start pieces places reach⦄, c.plan.struct? t = some layout →
    encodeStruct c depth layout values start = .ok pieces →
    AllStand c whole (Piece.pointees pieces) places reach →
    Held whole start (Piece.fill c.order places pieces) →
    ∀ ⦃cur result⦄, decodeStruct c data depth layout start cur = .ok result →
      AllRead c data (Piece.pointees pieces) places

/-- The structs at the places of slots are read there. -/
theorem allRead_of_decodePointees {layout : StructLayout} {structs : List Fields}
    {places : List Nat} (hlength : places.length = structs.length) {cur : Cursor}
    {done : List Value} {result : List Value × Cursor}
    (h : decodePointees (decodeStruct c data depth) layout places cur done = .ok result) :
    AllRead c data (structs.map fun values => ⟨layout, values, depth⟩) places := by
  induction structs generalizing places cur done with
  | nil =>
    rw [List.length_eq_zero_iff.1 hlength]
    exact .nil
  | cons values structs ih =>
    cases places with
    | nil => cases hlength
    | cons place places =>
      rw [decodePointees] at h
      split at h
      · next hnext => exact .cons ⟨cur, _, hnext⟩ (ih (Nat.succ.inj hlength) h)
      · cases h

section Walk

variable (hmore : data.toList <+: whole.toList) (hplan : c.plan.WellFormed)
  (hinner : Visits c data whole depth)

include hmore hplan hinner

/-! ## Values -/

theorem allRead_of_decodeStructs {t : String} {layout : StructLayout}
    (ht : c.plan.struct? t = some layout) {field : String} {items : List Value}
    {pieces : List Piece} {places : List Nat} {reach : Nat} {cur : Cursor}
    (h : encodeStructs (encodeStruct c depth) field layout cur.position items = .ok pieces)
    (hstand : AllStand c whole (Piece.pointees pieces) places reach)
    (hheld : Held whole cur.position (Piece.fill c.order places pieces)) {done : List Value}
    {result : List Value × Cursor}
    (hdecode : decodeStructs (decodeStruct c data depth) layout items.length cur done =
      .ok result) :
    AllRead c data (Piece.pointees pieces) places := by
  induction items generalizing pieces places reach cur done with
  | nil =>
    cases h
    obtain ⟨rfl, -⟩ := hstand.nil_inv
    exact .nil
  | cons item items ih =>
    unfold encodeStructs at h
    split at h
    · cases h
    · obtain ⟨first, hfirst, h⟩ := bind_eq_ok.1 h
      obtain ⟨others, hothers, h⟩ := bind_eq_ok.1 h
      cases pure_eq_ok.1 h
      rw [Piece.pointees_append] at hstand ⊢
      obtain ⟨places₁, places₂, reach₁, reach₂, rfl, -, hstand₁, hstand₂⟩ := hstand.append_inv
      rw [Piece.fill_append _ _ hstand₁.length_eq, held_append, Piece.length_fill] at hheld
      rw [List.length_cons, decodeStructs] at hdecode
      split at hdecode
      · next v next hnext =>
        obtain ⟨_, hstruct, -⟩ := bind_eq_ok.1 hnext
        have hread := hinner ht hfirst hstand₁ hheld.1 hstruct
        obtain ⟨_, hsame, hposition, -⟩ :=
          decodeInline_of_encode (inverts hplan depth) ht hfirst hstand₁ hheld.1
        cases hsame.symm.trans
          (persists_decodeInline (persists_decodeStruct hmore c depth) layout cur _ hnext)
        rw [← hposition] at hothers hheld
        exact List.rel_append hread (ih hothers hstand₂ hheld.2 hdecode)
      · cases hdecode

theorem allRead_of_decodeItems {f : PlacedField} {items : List Value} {pieces : List Piece}
    {places : List Nat} {reach : Nat} {cur : Cursor}
    (h : encodeItems c (encodeStruct c depth) depth f cur.position items = .ok pieces)
    (hstand : AllStand c whole (Piece.pointees pieces) places reach)
    (hheld : Held whole cur.position (Piece.fill c.order places pieces))
    {result : List Value × Cursor}
    (hdecode : decodeItems c data (decodeStruct c data depth) f items.length cur = .ok result) :
    AllRead c data (Piece.pointees pieces) places := by
  unfold encodeItems at h
  split at h
  · obtain ⟨parts, -, h⟩ := bind_eq_ok.1 h
    cases pure_eq_ok.1 h
    rw [Piece.pointees_ofBytes] at hstand ⊢
    obtain ⟨rfl, -⟩ := hstand.nil_inv
    exact .nil
  · next hformat =>
    obtain ⟨layout, hlayout, h⟩ := bind_eq_ok.1 h
    obtain ⟨t, -, ht⟩ := structOf_eq_ok.1 hlayout
    rw [decodeItems, hformat] at hdecode
    obtain ⟨_, hfound, hdecode⟩ := bind_eq_ok.1 hdecode
    cases hlayout.symm.trans hfound
    exact allRead_of_decodeStructs hmore hplan hinner ht h hstand hheld hdecode
  · next hplain hstructs =>
    obtain ⟨layout, hlayout, h⟩ := bind_eq_ok.1 h
    obtain ⟨structs, rfl, rfl⟩ := mapM_encodeSlot h
    rw [pointees_slots] at hstand ⊢
    have hslots := readSlots_of_fill hstand hheld []
    unfold decodeItems at hdecode
    split at hdecode
    · next e hformat => exact absurd hformat (hplain e)
    · next hformat => exact absurd hformat hstructs
    · obtain ⟨_, hfound, hdecode⟩ := bind_eq_ok.1 hdecode
      cases hlayout.symm.trans hfound
      obtain ⟨⟨found, position⟩, hfound, hdecode⟩ := bind_eq_ok.1 hdecode
      obtain ⟨_, hpointees, -⟩ := bind_eq_ok.1 hdecode
      -- The slots of the prefix are those that were filled.
      have hsame := persists_readSlots hmore c.order _ _ _ _ hfound
      rw [List.length_map] at hslots hsame
      cases hslots.symm.trans hsame
      exact allRead_of_decodePointees (by simpa using hstand.length_eq) hpointees

theorem allRead_of_decodeValue {f : PlacedField} {values seen : Fields} {value : Value}
    {pieces : List Piece} {places : List Nat} {reach : Nat} {cur : Cursor}
    (h : encodeValue c (encodeStruct c depth) depth f values cur.position value = .ok pieces)
    (hcount : f.format.isArray = true → countOf f seen = countOf f values)
    (hstand : AllStand c whole (Piece.pointees pieces) places reach)
    (hheld : Held whole cur.position (Piece.fill c.order places pieces)) {found : Value}
    {after : Cursor}
    (hdecode : decodeValue c data (decodeStruct c data depth) f seen cur = .ok (found, after)) :
    AllRead c data (Piece.pointees pieces) places := by
  cases hscalar : f.format.scalar? with
  | some e =>
    rw [encodeValue, hscalar] at h
    obtain ⟨bytes, -, h⟩ := bind_eq_ok.1 h
    cases pure_eq_ok.1 h
    rw [Piece.pointees_ofBytes] at hstand ⊢
    obtain ⟨rfl, -⟩ := hstand.nil_inv
    exact .nil
  | none =>
    cases harray : f.format.isArray with
    | true =>
      obtain ⟨items, rfl, hcounted, h⟩ := (encodeValue_array_eq_ok harray).1 h
      obtain ⟨_, count, -, hseen, hdecode⟩ := (decodeValue_array_eq_ok harray).1 hdecode
      cases hseen.symm.trans ((hcount harray).trans hcounted)
      exact allRead_of_decodeItems hmore hplan hinner h hstand hheld hdecode
    | false =>
      obtain ⟨members, layout, rfl, hlayout, h⟩ := (encodeValue_struct_eq_ok hscalar harray).1 h
      obtain ⟨t, -, ht⟩ := structOf_eq_ok.1 hlayout
      obtain ⟨_, hfound, hdecode⟩ := (decodeValue_struct_eq_ok hscalar harray).1 hdecode
      cases hlayout.symm.trans hfound
      obtain ⟨_, hstruct, -⟩ := bind_eq_ok.1 hdecode
      exact hinner ht h hstand hheld hstruct

/-! ## Fields -/

/-- **The elements behind fields are read**, if the fields are. The induction is on the fields; as
every field of the prefix is decoded to what was encoded, the decoder goes on from there as the
encoder did. -/
theorem allRead_of_decodeFields {values result : Fields} {base : Nat} {endOffset : Offset}
    {fields : List PlacedField} {before : List String} {seen : Fields} {known : Known}
    {place : Nat} {pieces : List Piece} {places : List Nat} {reach : Nat}
    (h : encodeFields c (encodeStruct c depth) depth values base endOffset place known fields =
      .ok pieces)
    (horder : Field.InOrder before (fields.map (·.toField)))
    (hheader : ∀ f ∈ fields, f.header = 0 ∨ f.header = headerSize)
    (hcounted : ∀ f ∈ fields, f.format.isArray = true → f.sizeField?.isSome)
    (hdecided : ∀ f ∈ fields, DecidedAlike c.plan.struct? values result f)
    (hseen : SeenAs before result seen)
    (hstand : AllStand c whole (Piece.pointees pieces) places reach)
    (hheld : Held whole place (Piece.fill c.order places pieces)) {cur : Cursor}
    {found : Fields × Nat × Cursor}
    (hdecode : decodeFields c data (decodeStruct c data depth) base endOffset seen known cur
      fields = .ok found) :
    AllRead c data (Piece.pointees pieces) places := by
  induction fields generalizing before seen known place pieces places reach cur with
  | nil =>
    obtain ⟨-, rfl⟩ := encodeFields_nil_eq_ok.1 h
    obtain ⟨rfl, -⟩ := hstand.nil_inv
    exact .nil
  | cons f rest ih =>
    obtain ⟨-, hdeps, horder⟩ := horder
    obtain ⟨hheader, hheaders⟩ := List.forall_mem_cons.1 hheader
    obtain ⟨hcounted, hcounteds⟩ := List.forall_mem_cons.1 hcounted
    obtain ⟨hf, hdecided⟩ := List.forall_mem_cons.1 hdecided
    have hholds := (hseen.allHold_eq hdeps).trans hf.presence
    rcases encodeFields_cons_eq_ok.1 h with ⟨habsent, h⟩ | ⟨hpresent, value, offset, valuePieces,
      header, others, hvalue, hoffset, hplace, hpieces, hencoded, hothers, rfl⟩
    · have hentry : result.find? f.name = none := by
        rw [hf.entry, PlacedField.isOnWire_of_allHold habsent]
        rfl
      rcases decodeFields_cons_eq_ok.1 hdecode with ⟨-, hdecode⟩ | ⟨hpresent, -⟩
      · exact ih h horder hheaders hcounteds hdecided (hseen.skip hentry) hstand hheld hdecode
      · cases hpresent.symm.trans (hholds.trans habsent)
    · have hwire := PlacedField.isOnWire_of_allHold hpresent
      have hentry : result.find? f.name = some (value.declared c.plan.struct? f.structType?) := by
        rw [hf.entry, hwire, hvalue]
        rfl
      have hcount : f.format.isArray = true → countOf f seen = countOf f values :=
        fun harray => (hseen.countOf_eq hdeps (hcounted harray)).trans (hf.count hwire harray)
      rw [Piece.pointees_append, Piece.pointees_ofBytes, List.nil_append,
        Piece.pointees_append] at hstand ⊢
      obtain ⟨places₁, places₂, reach₁, reach₂, rfl, -, hstand₁, hstand₂⟩ := hstand.append_inv
      rw [Piece.fill_ofBytes_append, Piece.fill_append _ _ hstand₁.length_eq, held_append,
        held_append, Piece.length_fill] at hheld
      rcases decodeFields_cons_eq_ok.1 hdecode with ⟨habsent, -⟩ | ⟨-, offset', declared?, value',
        after, hoffset', -, hvalue', -, hdecode⟩
      · cases habsent.symm.trans (hholds.trans hpresent)
      · cases hoffset.symm.trans hoffset'
        obtain ⟨hstart, _, _, -, hsame, -, hposition, -⟩ := decodeField_of_encode
          (inverts hplan depth) cur hheader hplace hpieces hencoded hcount hstand₁ hheld.1 hheld.2.1
        rw [← hstart] at hheld
        have hread : AllRead c data (Piece.pointees valuePieces) places₁ :=
          allRead_of_decodeValue hmore hplan hinner hpieces hcount hstand₁ hheld.2.1 hvalue'
        cases hsame.symm.trans (persists_decodeValue hmore c (persists_decodeStruct hmore c depth)
          f seen _ _ hvalue')
        have htaken : after.position - (base + offset) = Piece.size valuePieces := by omega
        rw [htaken, record_declared] at hdecode
        exact List.rel_append hread (ih hothers horder hheaders hcounteds hdecided
          (hseen.insert hentry) hstand₂ hheld.2.2 hdecode)

/-- The elements behind a well-placed list are read. -/
theorem allRead_of_wellPlaced {header : Nat} (hheader : header = 0 ∨ header = headerSize)
    {fields : List PlacedField} {endOffset : Offset}
    (hplaced : WellPlaced c.plan.struct? header fields endOffset) {values : Fields}
    (hconsistent : Consistent c.plan.struct? fields values) {base : Nat} {pieces : List Piece}
    {places : List Nat} {reach : Nat}
    (h : encodeFields c (encodeStruct c depth) depth values base endOffset base .nothing fields =
      .ok pieces)
    (hstand : AllStand c whole (Piece.pointees pieces) places reach)
    (hheld : Held whole base (Piece.fill c.order places pieces)) {cur : Cursor}
    {found : Fields × Nat × Cursor}
    (hdecode : decodeFields c data (decodeStruct c data depth) base endOffset [] .nothing cur
      fields = .ok found) :
    AllRead c data (Piece.pointees pieces) places :=
  allRead_of_decodeFields hmore hplan hinner h hplaced.inOrder
    (fun _ hf => (hplaced.placed.header_eq hf).symm ▸ hheader) (fun _ hf => hplaced.counted hf)
    (fun _ hf => decidedAlike_of_consistent hplaced.nodup hconsistent hf) (seenAs_nil _) hstand
    hheld hdecode

end Walk

section Structs

variable (hmore : data.toList <+: whole.toList) (hplan : c.plan.WellFormed)

include hmore hplan

/-- **The elements behind a struct are read.** The induction is on how deep structs nest. -/
theorem visits (depth : Nat) : Visits c data whole depth := by
  induction depth with
  | zero =>
    intro t layout values start pieces places reach _ h
    cases h
  | succ depth ih =>
    intro t layout values start pieces places reach ht h hstand hheld cur result hdecode
    have hlayout := hplan.structs ht
    have hmembers := hlayout.members
    have hconsistent : Consistent c.plan.struct? layout.members values :=
      consistent_of_ungated hlayout.ungated hmembers.inOrder (fun f hf => hmembers.counted hf)
        values
    exact allRead_of_wellPlaced hmore hplan ih (.inl rfl) hmembers hconsistent h hstand hheld
      hdecode

omit hmore in
/-- A struct that is decoded ends inside the data, or it has no bytes. -/
theorem inside_of_decodeStruct {t : String} {layout : StructLayout}
    (ht : c.plan.struct? t = some layout) {start size : Nat} {cur cur' : Cursor} {values : Fields}
    (h : decodeStruct c data depth layout start cur = .ok (values, size, cur')) :
    size = 0 ∨ start + size ≤ data.size := by
  rcases Nat.lt_or_ge data.size start with hpast | hinside
  · exact .inl (size_of_decodeStruct_past hplan hpast depth ht h).2.1
  · -- Any limit beyond the data and all slots will do, as only positions matter.
    have hlimits : Limits c.plan.struct? data (max data.size UInt32.size) layout.members :=
      ⟨Nat.le_max_left _ _, fun _ place hslot => by omega⟩
    exact .inr (staysWithin hplan depth ht hlimits hinside h).1

/-! ## The elements behind a container -/

/-- Elements that are read end inside the data, or have no bytes, and the elements of their slots
are read too. -/
theorem inside_of_encodePointees {start : Nat} {ps : List Pointee} {places slots : List Nat}
    {pieces : List Piece} {reach : Nat} (h : encodePointees c start ps = .ok (places, pieces))
    (hps : OfPlan c ps) (hread : AllRead c data ps places)
    (hstand : AllStand c whole (Piece.pointees pieces) slots reach)
    (hheld : Held whole start (Piece.fill c.order slots pieces)) :
    (Piece.size pieces = 0 ∨ start + Piece.size pieces ≤ data.size) ∧
      AllRead c data (Piece.pointees pieces) slots := by
  induction ps generalizing start places slots pieces reach with
  | nil =>
    cases h
    obtain ⟨rfl, -⟩ := hstand.nil_inv
    exact ⟨.inl rfl, .nil⟩
  | cons p ps ih =>
    unfold encodePointees at h
    split at h
    · obtain ⟨first, hfirst, h⟩ := bind_eq_ok.1 h
      obtain ⟨⟨places, others⟩, hothers, h⟩ := bind_eq_ok.1 h
      cases pure_eq_ok.1 h
      obtain ⟨t, ht⟩ := hps p (.head _)
      rw [Piece.pointees_append] at hstand ⊢
      obtain ⟨slots₁, slots₂, reach₁, reach₂, rfl, -, hstand₁, hstand₂⟩ := hstand.append_inv
      rw [Piece.fill_append _ _ hstand₁.length_eq, held_append, Piece.length_fill] at hheld
      cases hread with
      | cons hp hread =>
        obtain ⟨cur, ⟨found, size, cur'⟩, hfound⟩ := hp
        obtain ⟨_, hsame, -⟩ := inverts hplan p.depth ht hfirst hstand₁ hheld.1 cur
        cases hsame.symm.trans (persists_decodeStruct hmore c p.depth p.layout start cur _ hfound)
        have hinside := inside_of_decodeStruct hplan ht hfound
        obtain ⟨hothersInside, hothersRead⟩ :=
          ih hothers (fun q hq => hps q (.tail _ hq)) hread hstand₂ hheld.2
        refine ⟨?_, List.rel_append (visits hmore hplan p.depth ht hfirst hstand₁ hheld.1 hfound)
          hothersRead⟩
        rw [Piece.size_append]
        omega
    · cases h

/-- **What stands behind a container ends inside the data**, or has no bytes, if the elements of the
first level are read. The induction is on the levels. -/
theorem inside_of_encodeLevels {levels start : Nat} {ps : List Pointee} {found deeper : List Nat}
    {behind : List Piece} (h : encodeLevels c levels start ps = .ok (found ++ deeper, behind))
    (hps : OfPlan c ps) (hread : AllRead c data ps found)
    (hheld : Held whole start (Piece.fill c.order deeper behind)) :
    Piece.size behind = 0 ∨ start + Piece.size behind ≤ data.size := by
  induction levels generalizing start ps found deeper behind with
  | zero =>
    cases ps with
    | nil =>
      obtain ⟨-, rfl⟩ := Prod.mk.inj (Except.ok.inj h)
      exact .inl rfl
    | cons p ps => cases h
  | succ levels ih =>
    cases ps with
    | nil =>
      obtain ⟨-, rfl⟩ := Prod.mk.inj (Except.ok.inj h)
      exact .inl rfl
    | cons p ps =>
      obtain ⟨⟨places, pieces⟩, hplaces, h⟩ := bind_eq_ok.1 h
      obtain ⟨⟨others, behind⟩, hdeeper, h⟩ := bind_eq_ok.1 h
      obtain ⟨hfound, rfl⟩ := Prod.mk.inj (pure_eq_ok.1 h)
      obtain ⟨hlength, hpieces⟩ := ofPlan_encodePointees hplaces
      obtain ⟨rfl, rfl⟩ := List.append_inj hfound (hlength.trans hread.length_eq)
      obtain ⟨slots, deeper, rfl, hlength', hstands⟩ :=
        allStand_of_encodeLevels hplan whole hdeeper hpieces
      rw [Piece.fill_append _ _ hlength', held_append, Piece.length_fill] at hheld
      obtain ⟨reach, hstand, -⟩ := hstands hheld.2
      obtain ⟨hinside, hslots⟩ :=
        inside_of_encodePointees hmore hplan hplaces hps hread hstand hheld.1
      have hbehind := ih hdeeper hpieces hslots hheld.2
      rw [Piece.size_append]
      omega

end Structs

/-! ## Containers -/

/-- Data that are decoded and begin an encoding are all of it. -/
theorem length_le_of_decode (hplan : c.plan.WellFormed) {m : MessageLayout}
    (hm : m ∈ c.plan.messages) {container : ContainerLayout} (hcontainer : container ∈ m.containers)
    {values : Fields} (hconsistent : Consistent c.plan.struct? container.fields values)
    {bytes short : List UInt8} (h : c.encode container values = .ok bytes)
    (hshort : short <+: bytes) {result : Fields × Nat}
    (hdecode : c.decode container short = .ok result) : bytes.length ≤ short.length := by
  obtain ⟨inline, hinline, h⟩ := bind_eq_ok.1 h
  obtain ⟨⟨places, behind⟩, hlevels, h⟩ := bind_eq_ok.1 h
  have hbytes : Piece.fill c.order places (inline ++ behind) = bytes := pure_eq_ok.1 h
  have hpointees := ofPlan_encodeFields ofPlan_encodeStruct hinline
  obtain ⟨found, deeper, rfl, hlength, hstands⟩ :=
    allStand_of_encodeLevels hplan bytes.toArray hlevels hpointees
  have hheld : Held bytes.toArray 0
      (Piece.fill c.order found inline ++ Piece.fill c.order deeper behind) := by
    rw [← Piece.fill_append _ _ hlength, hbytes]
    exact ⟨Nat.zero_le _, List.prefix_refl _⟩
  rw [held_append, Piece.length_fill, Nat.zero_add] at hheld
  obtain ⟨reach, hstand, -⟩ := hstands hheld.2
  obtain ⟨⟨seen, size, cur⟩, hread, -⟩ := bind_eq_ok.1 hdecode
  have hmore : short.toArray.toList <+: bytes.toArray.toList := hshort
  have hplaced := hplan.containers m hm container hcontainer
  have hheader := headerSize_eq c.plan.variant
  -- The inline bytes are inside the data, as the decode that is known of them takes them all.
  obtain ⟨_, hsame, -⟩ := decodeFields_of_wellPlaced (inverts hplan c.nesting) hheader hplaced
    hconsistent hinline hstand hheld.1 {}
  cases hsame.symm.trans (persists_read hshort _ hread)
  have hlimits : Limits c.plan.struct? short.toArray (max short.length UInt32.size)
      container.fields := ⟨Nat.le_max_left _ _, fun _ place hslot => by omega⟩
  obtain ⟨hinside, -⟩ := within_of_decodeFields hplan (staysWithin hplan c.nesting)
    (by rcases hheader with heq | heq <;> rw [heq]; exact Nat.zero_le _) hplaced hlimits
    (fun _ hf => hf) hplaced.inOrder hplaced.placed tracks_start (Nat.zero_le _) hread
  have hslots := allRead_of_wellPlaced hmore hplan (visits hmore hplan c.nesting) hheader hplaced
    hconsistent hinline hstand hheld.1 hread
  have hbehind := inside_of_encodeLevels hmore hplan hlevels hpointees hslots hheld.2
  have hsize : bytes.length = Piece.size inline + Piece.size behind := by
    rw [← hbytes, Piece.length_fill, Piece.size_append]
  have hdata : short.toArray.size = short.length := rfl
  omega

end WirePlan.Codec

namespace WirePlan

/-- **A truncated encoding is not decoded.** In every plan of a source, under either byte order,
decoding fails on every strict prefix of the encoding of a canonical dictionary. -/
theorem decode_eq_error_of_truncated {source : String} {options : Options} {plan : Plan}
    (hplan : Plan.ofSource source options = .ok plan) {m : MessageLayout} (hm : m ∈ plan.messages)
    {container : ContainerLayout} (hcontainer : container ∈ m.containers) (order : ByteOrder)
    {values : Fields} (hcanonical : Canonical plan.struct? container.fields values)
    {bytes : List UInt8} (h : Codec.encode ⟨plan, order⟩ container values = .ok bytes)
    {short : List UInt8} (hshort : short <+: bytes) (hstrict : short ≠ bytes) :
    ∃ e, Codec.decode ⟨plan, order⟩ container short = .error e := by
  cases hdecode : Codec.decode ⟨plan, order⟩ container short with
  | error e => exact ⟨e, rfl⟩
  | ok result =>
    have hle := Codec.length_le_of_decode (c := ⟨plan, order⟩) (Plan.wellFormed_ofSource hplan) hm
      hcontainer (consistent_of_canonical hcanonical) h hshort hdecode
    exact absurd (hshort.eq_of_length_le hle) hstrict

/-- A tree has exactly the members of its struct, and so have its leaves. -/
theorem exact_tree (leaves : List Nat) :
    (treeValue leaves).Exact forestPlan.struct? (some "Tree") := by
  have hleaf (n : Nat) :
      (Value.struct [("value", .ofNat .u8 n)]).Exact forestPlan.struct? (some "Leaf") := by
    rintro layout ⟨⟩
    exact ⟨List.pairwise_singleton _ _, fun name => by simp [Keyed.keys],
      fun f hf hname => by cases hf <;> trivial, trivial⟩
  have hleaves : ExactItems forestPlan.struct? (some "Leaf")
      (leaves.map fun n => .struct [("value", .ofNat .u8 n)]) := by
    induction leaves with
    | nil => trivial
    | cons n rest ih => exact ⟨hleaf n, ih⟩
  rintro layout ⟨⟩
  refine ⟨(by decide : ["count", "leaves"].Pairwise (· < ·)), fun name => Iff.rfl,
    fun _ _ _ => trivial, fun f hf hname => ?_, trivial⟩
  simp only [indirectFields, List.mem_cons, List.not_mem_nil, or_false] at hf
  rcases hf with rfl | rfl
  · simp at hname
  · exact hleaves

theorem canonical_forest :
    Canonical forestPlan.struct? forestContainer.fields forestValues where
  sorted := (by decide : ["count", "trees"].Pairwise (· < ·))
  keys name := by
    have hkeys : Keyed.keys forestValues = forestContainer.fields.map (·.name) := rfl
    rw [hkeys, List.mem_map]
    refine exists_congr fun f => and_congr_right fun hf => (and_iff_left ?_).symm
    simp only [forestContainer, indirectFields, List.mem_cons, List.not_mem_nil, or_false] at hf
    rcases hf with rfl | rfl <;> rfl
  exactFields := by
    refine ⟨fun _ _ _ => trivial, fun f hf hname => ?_, trivial⟩
    simp only [forestContainer, indirectFields, List.mem_cons, List.not_mem_nil, or_false] at hf
    rcases hf with rfl | rfl
    · simp at hname
    · exact ⟨exact_tree [7], exact_tree [8, 9], trivial⟩

/-- Two trees without the last byte of the last leaf are not decoded. -/
theorem decode_forest_truncated :
    ∃ e, Codec.decode ⟨forestPlan, .little⟩ forestContainer (forestBytes.take 25) = .error e := by
  have hencoded : Codec.encode ⟨forestPlan, .little⟩ forestContainer forestValues =
      .ok forestBytes := toOption_eq_some.1 (by decide +kernel)
  exact decode_eq_error_of_truncated forestPlan_eq (.head _) (.head _) .little canonical_forest
    hencoded ⟨[9], rfl⟩ (by decide)

end WirePlan
