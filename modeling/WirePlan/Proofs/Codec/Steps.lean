import WirePlan.Codec.Decode
import WirePlan.Codec.Encode
import WirePlan.Proofs.Outcome

/-!
# One field at a time

What it takes to encode or decode the first field of a list: it is absent and passed over, or it is
there and everything about it succeeds. Each walk over the fields of a list goes by these rules, one
for the end of the list and one for a field.
-/

namespace WirePlan.Codec

variable {c : Codec} {base : Nat} {endOffset : Offset}

/-- The header of a container, which the encoder writes whenever there is one. -/
theorem headerSize_eq (variant : Variant) :
    variant.headerSize = 0 ∨ variant.headerSize = headerSize := by
  cases variant with
  | tlv => exact .inr rfl
  | fixed => exact .inl rfl

/-- Presence cannot be decided only where a prerequisite compares what is no number. -/
theorem exists_of_allHold_eq_error {ps : List Prerequisite} {values : Fields} {e : CodecError}
    (h : Prerequisite.allHold ps values = .error e) : ∃ p ∈ ps, e = .prerequisite p := by
  induction ps with
  | nil => cases h
  | cons p rest ih =>
    rw [Prerequisite.allHold] at h
    split at h
    · obtain ⟨q, hq, he⟩ := ih h
      exact ⟨q, .tail _ hq, he⟩
    · cases h
    · next e' he' =>
      cases h
      unfold Prerequisite.holds at he'
      split at he'
      · cases he'
      · split at he' <;> cases he'
        exact ⟨p, .head _, rfl⟩

theorem structOf_eq_ok {f : PlacedField} {layout : StructLayout} :
    c.structOf f = .ok layout ↔
      ∃ t, f.structType? = some t ∧ c.plan.struct? t = some layout := by
  unfold structOf
  cases f.structType? with
  | none => simp
  | some t =>
    dsimp only
    cases h : c.plan.struct? t <;> simp [h]

theorem fields?_eq_some {v : Value} {values : Fields} :
    v.fields? = some values ↔ v = .struct values := by
  cases v <;> simp [Value.fields?]

theorem items?_eq_some {v : Value} {items : List Value} :
    v.items? = some items ↔ v = .array items := by
  cases v <;> simp [Value.items?]

theorem checkPlace_eq_ok {field : String} {offset? : Option Nat} {actual : Nat} {u : Unit} :
    checkPlace field (offset?.map (base + ·)) actual = .ok u ↔
      ∃ offset, offset? = some offset ∧ base + offset = actual := by
  rw [checkPlace, ite_eq_ok, Option.map_eq_some_iff]
  simp

theorem requireCount_eq_ok {f : PlacedField} {items : Nat} {siblings : Fields} {u : Unit} :
    requireCount f items siblings = .ok u ↔ countOf f siblings = .ok items := by
  rw [requireCount, bind_eq_ok]
  constructor
  · rintro ⟨count, hcount, h⟩
    obtain ⟨rfl, -⟩ := ite_eq_ok.1 h
    exact hcount
  · intro h
    exact ⟨items, h, if_pos rfl⟩

theorem countOf_eq_ok {f : PlacedField} {siblings : Fields} {count : Nat} :
    countOf f siblings = .ok count ↔
      (siblings.find? (sizeField f)).bind Value.natural? = some count := by
  unfold countOf
  split
  · next n hn => simp [hn]
  · next hnone => simp [hnone]

/-- An array has no format of a value without parts. -/
theorem scalar?_of_isArray {f : Format} (h : f.isArray = true) : f.scalar? = none := by
  cases f <;> first | rfl | cases h

/-- There are three kinds of arrays. -/
theorem format_of_isArray {format : Format} (h : format.isArray = true) :
    (∃ e, format = .array e) ∨ format = .structArray ∨ format = .refStructArray := by
  cases format with
  | array e => exact .inl ⟨e, rfl⟩
  | structArray => exact .inr (.inl rfl)
  | refStructArray => exact .inr (.inr rfl)
  | int | uuid | string | ipv4 | ipv6 | refIpv4 | refIpv6 | struct | refStruct => cases h

/-- What has parts and is no array is a struct. -/
theorem format_of_single {format : Format} (hscalar : format.scalar? = none)
    (hsingle : format.isArray = false) : format = .struct ∨ format = .refStruct := by
  cases format with
  | struct => exact .inl rfl
  | refStruct => exact .inr rfl
  | array | structArray | refStructArray => cases hsingle
  | int | uuid | string | ipv4 | ipv6 | refIpv4 | refIpv6 => cases hscalar

section Encoding

variable {inner : StructEncoder} {depth : Nat} {values : Fields} {place : Nat} {known : Known}
  {pieces : List Piece}

/-- An array is as many items as its siblings tell. -/
theorem encodeValue_array_eq_ok {f : PlacedField} (harray : f.format.isArray = true)
    {value : Value} {start : Nat} :
    encodeValue c inner depth f values start value = .ok pieces ↔
      ∃ items, value = .array items ∧ countOf f values = .ok items.length ∧
        encodeItems c inner depth f start items = .ok pieces := by
  rw [encodeValue, scalar?_of_isArray harray]
  dsimp only
  rw [if_pos harray]
  constructor
  · intro h
    split at h
    · cases h
    · next items hitems =>
      obtain ⟨_, hcount, h⟩ := bind_eq_ok.1 h
      exact ⟨items, items?_eq_some.1 hitems, requireCount_eq_ok.1 hcount, h⟩
  · rintro ⟨items, rfl, hcount, h⟩
    exact bind_eq_ok.2 ⟨(), requireCount_eq_ok.2 hcount, h⟩

/-- A value that is neither is a struct. -/
theorem encodeValue_struct_eq_ok {f : PlacedField} (hscalar : f.format.scalar? = none)
    (hsingle : f.format.isArray = false) {value : Value} {start : Nat} :
    encodeValue c inner depth f values start value = .ok pieces ↔
      ∃ members layout, value = .struct members ∧ c.structOf f = .ok layout ∧
        inner layout members start = .ok pieces := by
  rw [encodeValue, hscalar, hsingle]
  constructor
  · intro h
    dsimp only at h
    rw [if_neg Bool.false_ne_true] at h
    split at h
    · cases h
    · next members hmembers =>
      obtain ⟨layout, hlayout, h⟩ := bind_eq_ok.1 h
      exact ⟨members, layout, fields?_eq_some.1 hmembers, hlayout, h⟩
  · rintro ⟨members, layout, rfl, hlayout, h⟩
    exact bind_eq_ok.2 ⟨layout, hlayout, h⟩

/-- A list ends where the plan says. -/
theorem encodeFields_nil_eq_ok :
    encodeFields c inner depth values base endOffset place known [] = .ok pieces ↔
      (∃ size, endOffset.evaluate? known = some size ∧ base + size = place) ∧ pieces = [] := by
  rw [encodeFields, bind_eq_ok]
  constructor
  · rintro ⟨_, hcheck, h⟩
    exact ⟨checkPlace_eq_ok.1 hcheck, (pure_eq_ok.1 h).symm⟩
  · rintro ⟨hplace, rfl⟩
    exact ⟨(), checkPlace_eq_ok.2 hplace, rfl⟩

/-- A field is absent and passed over, or it starts where the plan says and is encoded there. -/
theorem encodeFields_cons_eq_ok {f : PlacedField} {rest : List PlacedField} :
    encodeFields c inner depth values base endOffset place known (f :: rest) = .ok pieces ↔
      Prerequisite.allHold f.prerequisites values = .ok false ∧
        encodeFields c inner depth values base endOffset place (known.without f.name) rest =
          .ok pieces ∨
      Prerequisite.allHold f.prerequisites values = .ok true ∧
        ∃ value offset valuePieces header others, values.find? f.name = some value ∧
          f.offset.evaluate? known = some offset ∧
          base + offset = place + (if f.header = 0 then 0 else headerSize) ∧
          encodeValue c inner depth f values (base + offset) value = .ok valuePieces ∧
          encodeHeader c f (Piece.size valuePieces) = .ok header ∧
          encodeFields c inner depth values base endOffset (base + offset + Piece.size valuePieces)
            (known.record f.toField value (Piece.size valuePieces)) rest = .ok others ∧
          pieces = Piece.ofBytes header ++ (valuePieces ++ others) := by
  rw [encodeFields, bind_eq_ok]
  constructor
  · rintro ⟨holds, hholds, h⟩
    cases holds with
    | false => exact .inl ⟨hholds, h⟩
    | true =>
      dsimp only at h
      rw [if_pos rfl] at h
      split at h
      · cases h
      · next value hvalue =>
        obtain ⟨_, hcheck, h⟩ := bind_eq_ok.1 h
        obtain ⟨offset, hoffset, hplace⟩ := checkPlace_eq_ok.1 hcheck
        rw [← hplace] at h
        obtain ⟨valuePieces, hpieces, h⟩ := bind_eq_ok.1 h
        obtain ⟨header, hheader, h⟩ := bind_eq_ok.1 h
        obtain ⟨others, hothers, h⟩ := bind_eq_ok.1 h
        cases pure_eq_ok.1 h
        exact .inr ⟨hholds, value, offset, valuePieces, header, others, hvalue, hoffset, hplace,
          hpieces, hheader, hothers, List.append_assoc _ _ _⟩
  · rintro (⟨hholds, h⟩ | ⟨hholds, value, offset, valuePieces, header, others, hvalue, hoffset,
      hplace, hpieces, hheader, hothers, rfl⟩)
    · exact ⟨false, hholds, h⟩
    · refine ⟨true, hholds, ?_⟩
      dsimp only
      rw [if_pos rfl, hvalue]
      dsimp only
      rw [← hplace]
      have hcheck : checkPlace f.name ((f.offset.evaluate? known).map (base + ·)) (base + offset) =
          .ok () := checkPlace_eq_ok.2 ⟨offset, hoffset, rfl⟩
      exact bind_eq_ok.2 ⟨_, hcheck, bind_eq_ok.2 ⟨_, hpieces, bind_eq_ok.2 ⟨_, hheader,
        bind_eq_ok.2 ⟨_, hothers, pure_eq_ok.2 (List.append_assoc _ _ _)⟩⟩⟩⟩

end Encoding

section Decoding

variable {data : Array UInt8} {inner : StructDecoder} {seen : Fields} {known : Known}
  {cur : Cursor} {result : Fields × Nat × Cursor}

/-- An array is as many items as the siblings seen tell. -/
theorem decodeValue_array_eq_ok {f : PlacedField} (harray : f.format.isArray = true)
    {value : Value} {after : Cursor} :
    decodeValue c data inner f seen cur = .ok (value, after) ↔
      ∃ items count, value = .array items ∧ countOf f seen = .ok count ∧
        decodeItems c data inner f count cur = .ok (items, after) := by
  rw [decodeValue, scalar?_of_isArray harray]
  dsimp only
  rw [if_pos harray]
  constructor
  · intro h
    obtain ⟨count, hcount, h⟩ := bind_eq_ok.1 h
    obtain ⟨⟨items, cur'⟩, hitems, h⟩ := bind_eq_ok.1 h
    cases pure_eq_ok.1 h
    exact ⟨items, count, rfl, hcount, hitems⟩
  · rintro ⟨items, count, rfl, hcount, h⟩
    exact bind_eq_ok.2 ⟨count, hcount, bind_eq_ok.2 ⟨_, h, rfl⟩⟩

/-- A value that is neither is a struct. -/
theorem decodeValue_struct_eq_ok {f : PlacedField} (hscalar : f.format.scalar? = none)
    (hsingle : f.format.isArray = false) {value : Value} {after : Cursor} :
    decodeValue c data inner f seen cur = .ok (value, after) ↔
      ∃ layout, c.structOf f = .ok layout ∧ decodeInline inner layout cur = .ok (value, after) := by
  rw [decodeValue, hscalar, hsingle]
  exact bind_eq_ok

/-- The end of a list is where the plan says. -/
theorem decodeFields_nil_eq_ok :
    decodeFields c data inner base endOffset seen known cur [] = .ok result ↔
      ∃ size, endOffset.evaluate? known = some size ∧
        result = (seen, size, cur.cover (base + size)) := by
  rw [decodeFields]
  cases endOffset.evaluate? known with
  | none => simp
  | some size => simp [eq_comm]

/-- A field is absent and passed over, or it is decoded where the plan says. -/
theorem decodeFields_cons_eq_ok {f : PlacedField} {rest : List PlacedField} :
    decodeFields c data inner base endOffset seen known cur (f :: rest) = .ok result ↔
      Prerequisite.allHold f.prerequisites seen = .ok false ∧
        decodeFields c data inner base endOffset seen (known.without f.name) cur rest =
          .ok result ∨
      Prerequisite.allHold f.prerequisites seen = .ok true ∧
        ∃ offset declared? value after, f.offset.evaluate? known = some offset ∧
          decodeHeader c data f (base + offset) = .ok declared? ∧
          decodeValue c data inner f seen (cur.seek (base + offset)) = .ok (value, after) ∧
          checkHeaderLength f declared? (after.position - (base + offset)) = .ok () ∧
          decodeFields c data inner base endOffset (seen.insert f.name value)
            (known.record f.toField value (after.position - (base + offset)))
            (after.cover after.position) rest = .ok result := by
  rw [decodeFields, bind_eq_ok]
  constructor
  · rintro ⟨holds, hholds, h⟩
    cases holds with
    | false => exact .inl ⟨hholds, h⟩
    | true =>
      dsimp only at h
      rw [if_pos rfl] at h
      split at h
      · cases h
      · next offset hoffset =>
        obtain ⟨declared?, hdeclared, h⟩ := bind_eq_ok.1 h
        obtain ⟨⟨value, after⟩, hvalue, h⟩ := bind_eq_ok.1 h
        obtain ⟨_, hcheck, h⟩ := bind_eq_ok.1 h
        exact .inr ⟨hholds, offset, declared?, value, after, hoffset, hdeclared, hvalue, hcheck, h⟩
  · rintro (⟨hholds, h⟩ | ⟨hholds, offset, declared?, value, after, hoffset, hdeclared, hvalue,
      hcheck, h⟩)
    · exact ⟨false, hholds, h⟩
    · refine ⟨true, hholds, ?_⟩
      dsimp only
      rw [if_pos rfl, hoffset]
      exact bind_eq_ok.2 ⟨_, hdeclared, bind_eq_ok.2 ⟨_, hvalue, bind_eq_ok.2 ⟨_, hcheck, h⟩⟩⟩

end Decoding

end WirePlan.Codec
