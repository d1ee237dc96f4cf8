import WirePlan.Proofs.Codec.Pieces
import WirePlan.Proofs.Codec.Seen
import WirePlan.Proofs.Plan.WellFormed

/-!
# Decoding what was encoded

Encoding walks through the fields and appends; decoding goes to the offsets of the plan and jumps
through slots. Both know the same of the fields before, as the encoder checks every place against
the plan, so decoding finds each field where it was put. What ties the two together is that the data
holds the filled pieces (`Held`) and that the elements of the slots stand (`AllStand`); then each
decoder gives back what is declared of the values (`Inverts`), for structs by induction on the
nesting. For the fields of a list the siblings decoded so far are what is written of those before
(`SeenAs`), which is all that prerequisites and counts ask for.
-/

namespace WirePlan.Codec

variable {c : Codec} {data : Array UInt8} {depth : Nat}

/-- What is covered on the way to a place does not matter once the bytes up to it are. -/
theorem max_covered {covered near far reach reach' : Nat} (h : near ≤ far) :
    max (max covered (max near reach)) (max far reach') =
      max covered (max far (max reach reach')) := by
  omega

/-- Decoding a struct of this depth gives what is declared of the values encoded. -/
def Inverts (c : Codec) (data : Array UInt8) (depth : Nat) : Prop :=
  ∀ ⦃t layout values start pieces places reach⦄, c.plan.struct? t = some layout →
    encodeStruct c depth layout values start = .ok pieces →
    AllStand c data (Piece.pointees pieces) places reach →
    Held data start (Piece.fill c.order places pieces) →
    ∀ cur, ∃ cur', decodeStruct c data depth layout start cur =
        .ok (declaredFields c.plan.struct? layout.members values, Piece.size pieces, cur') ∧
      cur'.covered = max cur.covered (max (start + Piece.size pieces) reach)

/-! ## Values -/

/-- The struct at the cursor. -/
theorem decodeInline_of_encode (hinner : Inverts c data depth) {t : String} {layout : StructLayout}
    (ht : c.plan.struct? t = some layout) {values : Fields} {pieces : List Piece}
    {places : List Nat} {reach : Nat} {cur : Cursor}
    (h : encodeStruct c depth layout values cur.position = .ok pieces)
    (hstand : AllStand c data (Piece.pointees pieces) places reach)
    (hheld : Held data cur.position (Piece.fill c.order places pieces)) :
    ∃ cur', decodeInline (decodeStruct c data depth) layout cur =
        .ok ((Value.struct values).declared c.plan.struct? (some t), cur') ∧
      cur'.position = cur.position + Piece.size pieces ∧
      cur'.covered = max cur.covered (max (cur.position + Piece.size pieces) reach) := by
  obtain ⟨next, hnext, hcovered⟩ := hinner ht h hstand hheld cur
  refine ⟨next.seek (cur.position + Piece.size pieces), ?_, rfl, hcovered⟩
  rw [decodeInline, hnext, declared_struct ht]
  rfl

/-- Structs one after the other at the cursor. -/
theorem decodeStructs_of_encode (hinner : Inverts c data depth) {t : String}
    {layout : StructLayout} (ht : c.plan.struct? t = some layout) {field : String}
    {items : List Value} {pieces : List Piece} {places : List Nat} {reach : Nat} {cur : Cursor}
    (h : encodeStructs (encodeStruct c depth) field layout cur.position items = .ok pieces)
    (hstand : AllStand c data (Piece.pointees pieces) places reach)
    (hheld : Held data cur.position (Piece.fill c.order places pieces)) (done : List Value) :
    ∃ cur', decodeStructs (decodeStruct c data depth) layout items.length cur done =
        .ok (done.reverse ++ items.map (Value.declared c.plan.struct? (some t)), cur') ∧
      cur'.position = cur.position + Piece.size pieces ∧
      max cur'.covered cur'.position = max (max cur.covered cur'.position) reach := by
  induction items generalizing pieces places reach cur done with
  | nil =>
    cases h
    obtain ⟨rfl, rfl⟩ := hstand.nil_inv
    exact ⟨cur, by simp [decodeStructs], rfl, by simp⟩
  | cons item items ih =>
    unfold encodeStructs at h
    split at h
    · cases h
    · next values hvalues =>
      cases fields?_eq_some.1 hvalues
      obtain ⟨first, hfirst, h⟩ := bind_eq_ok.1 h
      obtain ⟨others, hothers, h⟩ := bind_eq_ok.1 h
      cases pure_eq_ok.1 h
      rw [Piece.pointees_append] at hstand
      obtain ⟨places₁, places₂, reach₁, reach₂, rfl, rfl, hstand₁, hstand₂⟩ := hstand.append_inv
      rw [Piece.fill_append _ _ hstand₁.length_eq, held_append, Piece.length_fill] at hheld
      obtain ⟨next, hnext, hposition, hcovered⟩ :=
        decodeInline_of_encode hinner ht hfirst hstand₁ hheld.1
      rw [← hposition] at hothers hheld
      obtain ⟨cur', hcur', hposition', hcovered'⟩ :=
        ih hothers hstand₂ hheld.2 ((Value.struct values).declared c.plan.struct? (some t) :: done)
      refine ⟨cur', ?_, ?_, ?_⟩
      · rw [List.length_cons, decodeStructs, hnext]
        simpa using hcur'
      · rw [hposition', hposition, Piece.size_append, Nat.add_assoc]
      · have hle : cur.position + Piece.size first ≤ cur'.position := by
          rw [hposition', hposition]
          exact Nat.le_add_right _ _
        rw [hcovered', Nat.max_assoc, hcovered, max_covered hle, Nat.max_assoc]

/-- What encodes as a value without parts has no members to leave out. -/
theorem declared_of_encode {structs : StructLayouts} {type? : Option String} {order : ByteOrder}
    {field : String} {lengthFormat : IntFormat} {e : Element} {v : Value} {bytes : List UInt8}
    (h : e.encode order field lengthFormat v = .ok bytes) : v.declared structs type? = v := by
  cases v with
  | struct _ | array _ => cases e <;> cases h
  | int _ _ | uuid _ | string _ | ipv4 _ | ipv6 _ => rw [Value.declared]

/-- The items of an array at the cursor. -/
theorem decodeItems_of_encode (hinner : Inverts c data depth) {f : PlacedField}
    {items : List Value} {pieces : List Piece} {places : List Nat} {reach : Nat} {cur : Cursor}
    (h : encodeItems c (encodeStruct c depth) depth f cur.position items = .ok pieces)
    (hstand : AllStand c data (Piece.pointees pieces) places reach)
    (hheld : Held data cur.position (Piece.fill c.order places pieces)) :
    ∃ cur', decodeItems c data (decodeStruct c data depth) f items.length cur =
        .ok (items.map (Value.declared c.plan.struct? f.structType?), cur') ∧
      cur'.position = cur.position + Piece.size pieces ∧
      max cur'.covered cur'.position = max (max cur.covered cur'.position) reach := by
  unfold encodeItems at h
  split at h
  · next e hformat =>
    obtain ⟨parts, hparts, h⟩ := bind_eq_ok.1 h
    cases pure_eq_ok.1 h
    rw [Piece.pointees_ofBytes] at hstand
    obtain ⟨rfl, rfl⟩ := hstand.nil_inv
    rw [Piece.fill_ofBytes] at hheld
    obtain ⟨cur', hcur', hposition, hcovered⟩ := Element.decodeMany_of_encode hparts hheld []
    have hitems : items.map (Value.declared c.plan.struct? f.structType?) = items := by
      refine (List.map_congr_left fun v hv => ?_).trans (List.map_id items)
      obtain ⟨bytes, -, hbytes⟩ := exists_of_mem_left (mapM_eq_ok.1 hparts) hv
      exact declared_of_encode hbytes
    refine ⟨cur', ?_, by rw [hposition, Piece.size_ofBytes], by rw [hcovered]; simp⟩
    rw [decodeItems, hformat, hitems]
    exact hcur'
  · next hformat =>
    obtain ⟨layout, hlayout, h⟩ := bind_eq_ok.1 h
    obtain ⟨t, htype, ht⟩ := structOf_eq_ok.1 hlayout
    obtain ⟨cur', hcur', hposition, hcovered⟩ :=
      decodeStructs_of_encode hinner ht h hstand hheld []
    refine ⟨cur', ?_, hposition, hcovered⟩
    rw [decodeItems, hformat, htype]
    exact bind_eq_ok.2 ⟨layout, hlayout, hcur'⟩
  · next hplain hstructs =>
    obtain ⟨layout, hlayout, h⟩ := bind_eq_ok.1 h
    obtain ⟨t, htype, ht⟩ := structOf_eq_ok.1 hlayout
    obtain ⟨structs, rfl, rfl⟩ := mapM_encodeSlot h
    rw [pointees_slots] at hstand
    have hread := readSlots_of_fill hstand hheld []
    rw [List.length_map] at hread
    obtain ⟨next, hnext, hcovered⟩ := decodePointees_of_allStand hstand
      (cur.seek (cur.position + Format.slotSize * structs.length)) []
    refine ⟨next.seek (cur.position + Format.slotSize * structs.length), ?_, ?_, ?_⟩
    · unfold decodeItems
      split
      · next e hformat => exact absurd hformat (hplain e)
      · next hformat => exact absurd hformat hstructs
      · rw [List.length_map]
        refine bind_eq_ok.2 ⟨layout, hlayout, bind_eq_ok.2 ⟨_, hread, bind_eq_ok.2 ⟨_, hnext, ?_⟩⟩⟩
        rw [htype, List.map_map]
        simp only [Function.comp_def, declared_struct ht]
        rfl
    · rw [size_slots, List.length_map]
      rfl
    · rw [Cursor.covered_seek, hcovered]
      simp only [Cursor.covered_seek, Cursor.position_seek]
      omega

/-- The value of a field at the cursor. The count that the siblings seen tell is the one that the
encoder checked. -/
theorem decodeValue_of_encode (hinner : Inverts c data depth) (cur : Cursor) {f : PlacedField}
    {values seen : Fields} {value : Value} {pieces : List Piece} {places : List Nat} {reach : Nat}
    (h : encodeValue c (encodeStruct c depth) depth f values cur.position value = .ok pieces)
    (hcount : f.format.isArray = true → countOf f seen = countOf f values)
    (hstand : AllStand c data (Piece.pointees pieces) places reach)
    (hheld : Held data cur.position (Piece.fill c.order places pieces)) :
    ∃ cur', decodeValue c data (decodeStruct c data depth) f seen cur =
        .ok (value.declared c.plan.struct? f.structType?, cur') ∧
      cur'.position = cur.position + Piece.size pieces ∧
      max cur'.covered cur'.position = max (max cur.covered cur'.position) reach := by
  cases hscalar : f.format.scalar? with
  | some e =>
    rw [encodeValue, hscalar] at h
    obtain ⟨bytes, hbytes, h⟩ := bind_eq_ok.1 h
    cases pure_eq_ok.1 h
    rw [Piece.pointees_ofBytes] at hstand
    obtain ⟨rfl, rfl⟩ := hstand.nil_inv
    rw [Piece.fill_ofBytes] at hheld
    obtain ⟨cur', hcur', hposition, hcovered⟩ := Element.decode_of_encode hbytes hheld
    refine ⟨cur', ?_, by rw [hposition, Piece.size_ofBytes], by rw [hcovered]; simp⟩
    rw [decodeValue, hscalar, declared_of_encode hbytes]
    exact hcur'
  | none =>
    cases harray : f.format.isArray with
    | true =>
      obtain ⟨items, rfl, hcounted, h⟩ := (encodeValue_array_eq_ok harray).1 h
      obtain ⟨cur', hcur', hposition, hcovered⟩ := decodeItems_of_encode hinner h hstand hheld
      refine ⟨cur', (decodeValue_array_eq_ok harray).2 ⟨_, _, ?_, (hcount harray).trans hcounted,
        hcur'⟩, hposition, hcovered⟩
      rw [Value.declared, declaredItems_eq_map]
    | false =>
      obtain ⟨members, layout, rfl, hlayout, h⟩ := (encodeValue_struct_eq_ok hscalar harray).1 h
      obtain ⟨t, htype, ht⟩ := structOf_eq_ok.1 hlayout
      obtain ⟨cur', hcur', hposition, hcovered⟩ := decodeInline_of_encode hinner ht h hstand hheld
      refine ⟨cur', (decodeValue_struct_eq_ok hscalar harray).2 ⟨layout, hlayout, ?_⟩, hposition,
        by omega⟩
      rw [htype, hcur']

/-! ## Fields -/

/-- The header of a value is read back. -/
theorem decodeHeader_of_encode {f : PlacedField} (hheader : f.header = 0 ∨ f.header = headerSize)
    {bytes place : Nat} {header : List UInt8} (h : encodeHeader c f bytes = .ok header)
    (hheld : Held data place header) :
    header.length = (if f.header = 0 then 0 else headerSize) ∧ ∃ declared?,
      decodeHeader c data f (place + header.length) = .ok declared? ∧
      checkHeaderLength f declared? bytes = .ok () := by
  unfold encodeHeader at h
  unfold decodeHeader
  split at h
  · next hnone =>
    cases h
    exact ⟨(if_pos hnone).symm, none, if_pos hnone, rfl⟩
  · next hsome =>
    obtain ⟨hlt, rfl⟩ := ite_eq_ok.1 h
    have hthree : f.header = headerSize := hheader.resolve_left hsome
    have hparts : Held data place ([f.tag?.getD 0] ++ c.order.bytes 2 bytes) := hheld
    obtain ⟨htag, hlength⟩ := held_append.1 hparts
    have hread : readNumber c.order data place 1 = .ok (f.tag?.getD 0).toNat :=
      readNumber_eq_ok.2 ⟨by rwa [c.order.bytes_one], (f.tag?.getD 0).toNat_lt⟩
    have hread' : readNumber c.order data (place + 1) 2 = .ok bytes :=
      readNumber_eq_ok.2 ⟨hlength, hlt⟩
    have hlengthThree : (f.tag?.getD 0 :: c.order.bytes 2 bytes).length = headerSize := by
      rw [List.length_cons, c.order.length_bytes]
      rfl
    refine ⟨hlengthThree.trans (if_neg hsome).symm, some bytes, ?_, if_pos rfl⟩
    · rw [if_neg hsome, hlengthThree, hthree, Nat.add_sub_cancel]
      refine bind_eq_ok.2 ⟨_, hread, ?_⟩
      rw [UInt8.ofNat_toNat, if_pos rfl]
      exact bind_eq_ok.2 ⟨_, hread', rfl⟩

/-- What is written of the dictionary decides the field's presence and count as the dictionary does.
-/
structure DecidedAlike (structs : StructLayouts) (values result : Fields) (f : PlacedField) :
    Prop where
  entry : result.find? f.name =
    if f.isOnWire values then (values.find? f.name).map (Value.declared structs f.structType?)
    else none
  presence : Prerequisite.allHold f.prerequisites result =
    Prerequisite.allHold f.prerequisites values
  count : f.isOnWire values = true → f.format.isArray = true →
    countOf f result = countOf f values

/-- What is written of a consistent dictionary decides as the dictionary does. -/
theorem decidedAlike_of_consistent {structs : StructLayouts} {fields : List PlacedField}
    {values : Fields} (hnames : (fields.map (·.name)).Nodup)
    (hconsistent : Consistent structs fields values) {f : PlacedField} (hf : f ∈ fields) :
    DecidedAlike structs values (written structs fields values) f :=
  ⟨find?_written hnames hf, hconsistent.presence f hf, hconsistent.count f hf⟩

/-- A known value counts the same without its undeclared members. -/
theorem record_declared {structs : StructLayouts} {type? : Option String} (known : Known)
    (f : Field) (v : Value) (bytes : Nat) :
    known.record f (v.declared structs type?) bytes = known.record f v bytes := by
  rw [Known.record, Known.record, natural?_declared]

/-- A field is read back with its header, which tells the bytes of the value. -/
theorem decodeField_of_encode (hinner : Inverts c data depth) (cur : Cursor) {f : PlacedField}
    (hheader : f.header = 0 ∨ f.header = headerSize) {values seen : Fields} {value : Value}
    {place start : Nat} {header : List UInt8} {pieces : List Piece} {places : List Nat}
    {reach : Nat} (hplace : start = place + (if f.header = 0 then 0 else headerSize))
    (hvalue : encodeValue c (encodeStruct c depth) depth f values start value = .ok pieces)
    (hencoded : encodeHeader c f (Piece.size pieces) = .ok header)
    (hcount : f.format.isArray = true → countOf f seen = countOf f values)
    (hstand : AllStand c data (Piece.pointees pieces) places reach)
    (hheldHeader : Held data place header)
    (hheldValue : Held data (place + header.length) (Piece.fill c.order places pieces)) :
    start = place + header.length ∧ ∃ declared? after,
      decodeHeader c data f start = .ok declared? ∧
      decodeValue c data (decodeStruct c data depth) f seen (cur.seek start) =
        .ok (value.declared c.plan.struct? f.structType?, after) ∧
      checkHeaderLength f declared? (Piece.size pieces) = .ok () ∧
      after.position = start + Piece.size pieces ∧
      max after.covered after.position = max (max cur.covered after.position) reach := by
  obtain ⟨hlength, declared?, hdecoded, hdeclared⟩ :=
    decodeHeader_of_encode hheader hencoded hheldHeader
  rw [← hlength] at hplace
  subst hplace
  obtain ⟨after, hafter, hposition, hcovered⟩ := decodeValue_of_encode hinner
    (cur.seek (place + header.length)) hvalue hcount hstand hheldValue
  exact ⟨rfl, declared?, after, hdecoded, hafter, hdeclared, hposition, hcovered⟩

/-- **Fields are read back.** The induction is on the fields; what it carries is that the siblings
seen are what is written of those before. -/
theorem decodeFields_of_encode (hinner : Inverts c data depth) {values result : Fields}
    {base : Nat} {endOffset : Offset} {fields : List PlacedField} {before : List String}
    {seen : Fields} {known : Known} {place : Nat} {pieces : List Piece} {places : List Nat}
    {reach : Nat}
    (h : encodeFields c (encodeStruct c depth) depth values base endOffset place known fields =
      .ok pieces)
    (horder : Field.InOrder before (fields.map (·.toField)))
    (hheader : ∀ f ∈ fields, f.header = 0 ∨ f.header = headerSize)
    (hcounted : ∀ f ∈ fields, f.format.isArray = true → f.sizeField?.isSome)
    (hdecided : ∀ f ∈ fields, DecidedAlike c.plan.struct? values result f)
    (hsorted : Keyed.Sorted result)
    (hresult : ∀ name v, result.find? name = some v → name ∈ before ∨ ∃ f ∈ fields, f.name = name)
    (hseen : SeenAs before result seen)
    (hstand : AllStand c data (Piece.pointees pieces) places reach)
    (hheld : Held data place (Piece.fill c.order places pieces)) (cur : Cursor) :
    ∃ size cur', decodeFields c data (decodeStruct c data depth) base endOffset seen known cur
        fields = .ok (result, size, cur') ∧
      base + size = place + Piece.size pieces ∧
      cur'.covered = max cur.covered (max (place + Piece.size pieces) reach) := by
  induction fields generalizing before seen known place pieces places reach cur with
  | nil =>
    obtain ⟨⟨size, hsize, rfl⟩, rfl⟩ := encodeFields_nil_eq_ok.1 h
    obtain ⟨rfl, rfl⟩ := hstand.nil_inv
    have hsame : seen = result := hseen.eq_result hsorted fun name v hv =>
      (hresult name v hv).resolve_right fun ⟨_, hf, _⟩ => nomatch hf
    exact ⟨size, cur.cover (base + size), decodeFields_nil_eq_ok.2 ⟨size, hsize, by rw [hsame]⟩,
      rfl, by simp [Piece.size]⟩
  | cons f rest ih =>
    obtain ⟨hfresh, hdeps, horder⟩ := horder
    obtain ⟨hheader, hheaders⟩ := List.forall_mem_cons.1 hheader
    obtain ⟨hcounted, hcounteds⟩ := List.forall_mem_cons.1 hcounted
    obtain ⟨hf, hdecided⟩ := List.forall_mem_cons.1 hdecided
    have hresult' : ∀ name v, result.find? name = some v →
        name ∈ f.name :: before ∨ ∃ g ∈ rest, g.name = name := by
      intro name v hv
      rcases hresult name v hv with hmem | ⟨g, hg, rfl⟩
      · exact .inl (.tail _ hmem)
      · cases hg with
        | head => exact .inl (.head _)
        | tail _ hg => exact .inr ⟨g, hg, rfl⟩
    have hholds := (hseen.allHold_eq hdeps).trans hf.presence
    rcases encodeFields_cons_eq_ok.1 h with ⟨habsent, h⟩ | ⟨hpresent, value, offset, valuePieces,
      header, others, hvalue, hoffset, hplace, hpieces, hencoded, hothers, rfl⟩
    · have hentry : result.find? f.name = none := by
        rw [hf.entry, PlacedField.isOnWire_of_allHold habsent]
        rfl
      obtain ⟨size, cur', hcur', hsize, hcovered⟩ := ih h horder hheaders hcounteds hdecided
        hresult' (hseen.skip hentry) hstand hheld cur
      exact ⟨size, cur', decodeFields_cons_eq_ok.2 (.inl ⟨hholds.trans habsent, hcur'⟩), hsize,
        hcovered⟩
    · have hwire := PlacedField.isOnWire_of_allHold hpresent
      have hentry : result.find? f.name = some (value.declared c.plan.struct? f.structType?) := by
        rw [hf.entry, hwire, hvalue]
        rfl
      have hcount : f.format.isArray = true → countOf f seen = countOf f values :=
        fun harray => (hseen.countOf_eq hdeps (hcounted harray)).trans (hf.count hwire harray)
      rw [Piece.pointees_append, Piece.pointees_ofBytes, List.nil_append,
        Piece.pointees_append] at hstand
      obtain ⟨places₁, places₂, reach₁, reach₂, rfl, rfl, hstand₁, hstand₂⟩ := hstand.append_inv
      rw [Piece.fill_ofBytes_append, Piece.fill_append _ _ hstand₁.length_eq, held_append,
        held_append, Piece.length_fill] at hheld
      obtain ⟨hstart, declared?, after, hdecoded, hafter, hdeclared, hposition, hcovered⟩ :=
        decodeField_of_encode hinner cur hheader hplace hpieces hencoded hcount hstand₁ hheld.1
          hheld.2.1
      rw [← hstart] at hheld
      have htaken : after.position - (base + offset) = Piece.size valuePieces := by omega
      obtain ⟨size, cur', hcur', hsize, hcovered'⟩ := ih hothers horder hheaders hcounteds hdecided
        hresult' (hseen.insert hentry) hstand₂ hheld.2.2 (after.cover after.position)
      have hend : base + offset + Piece.size valuePieces + Piece.size others =
          place + Piece.size (Piece.ofBytes header ++ (valuePieces ++ others)) := by
        rw [Piece.size_append, Piece.size_append, Piece.size_ofBytes, hstart]
        simp only [Nat.add_assoc]
      refine ⟨size, cur', ?_, hsize.trans hend, ?_⟩
      · refine decodeFields_cons_eq_ok.2 (.inr ⟨hholds.trans hpresent, offset, declared?, _, after,
          hoffset, hdecoded, hafter, ?_, ?_⟩)
        · rw [htaken, hdeclared]
        · rw [htaken, record_declared, hcur']
      · rw [hcovered', Cursor.covered_cover, hcovered, hposition, Nat.max_assoc cur.covered,
          max_covered (Nat.le_add_right _ _), hend]

end WirePlan.Codec
