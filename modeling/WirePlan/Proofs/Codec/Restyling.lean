import WirePlan.Codec.Decode
import WirePlan.Codec.Encode
import WirePlan.Proofs.Plan.Restyling

/-!
# Looks that the codec does not see

Under a restyled plan the values of a restyled container are encoded to the same bytes
(`Codec.encode_restyle`), and bytes are decoded to the same values (`Codec.decode_restyle`); what
fails does so with the same error. The pieces of an encoding hold layouts of elements, which are
restyled, until the last element is encoded.
-/

namespace WirePlan

open Codec

variable (r : Restyling)

namespace Restyling

@[simp] theorem scalar?_format (f : Format) : (r.format f).scalar? = f.scalar? :=
  r.apply_format _ (fun f => by cases f <;> rfl) f

theorem format_eq_string {f : Format} : r.format f = .string ↔ f = .string :=
  iff_of_eq (r.apply_format (· = .string) (fun f => by cases f <;> simp [Format.unboxed]) f)

end Restyling

theorem Known.record_restyle (known : Known) (f : Field) (value : Value) (bytes : Nat) :
    known.record (f.restyle r) value bytes = known.record f value bytes := by
  unfold record
  simp only [Field.restyle, r.format_eq_string]
  rfl

/-- The codec of the restyled plan. -/
def Codec.restyle (c : Codec) : Codec := { c with plan := c.plan.restyle r }

namespace Codec

variable (c : Codec)

theorem struct?_restyle (name : String) :
    (c.restyle r).plan.struct? name = (c.plan.struct? name).map (StructLayout.restyle r) :=
  List.find?_map

theorem structOf_restyle (f : PlacedField) :
    (c.restyle r).structOf (f.restyle r) = (c.structOf f).map (StructLayout.restyle r) := by
  have htype : (f.restyle r).structType? = f.structType? := rfl
  rw [structOf, structOf, htype]
  cases f.structType? with
  | none => rfl
  | some t =>
    dsimp only
    rw [struct?_restyle]
    cases c.plan.struct? t <;> rfl

theorem nesting_restyle : (c.restyle r).nesting = c.nesting := List.length_map _

end Codec

/-! ## Pieces -/

/-- The element restyled. -/
def Pointee.restyle (p : Pointee) : Pointee := { p with layout := p.layout.restyle r }

namespace Piece

/-- The piece restyled. -/
def restyle : Piece → Piece
  | .byte b => .byte b
  | .slot p => .slot (p.restyle r)

@[simp] theorem size_restyle (pieces : List Piece) :
    size (pieces.map (restyle r)) = size pieces := by
  induction pieces with
  | nil => rfl
  | cons piece rest ih =>
    rw [List.map_cons]
    cases piece with
    | byte b => exact congrArg (1 + ·) ih
    | slot p => exact congrArg (Format.slotSize + ·) ih

@[simp] theorem map_restyle_ofBytes (bytes : List UInt8) :
    (ofBytes bytes).map (restyle r) = ofBytes bytes :=
  List.map_map

theorem pointees_restyle (pieces : List Piece) :
    pointees (pieces.map (restyle r)) = (pointees pieces).map (Pointee.restyle r) := by
  induction pieces with
  | nil => rfl
  | cons piece rest ih =>
    rw [List.map_cons]
    cases piece with
    | byte b => exact ih
    | slot p => exact congrArg (p.restyle r :: ·) ih

theorem fill_restyle (order : ByteOrder) (places : List Nat) (pieces : List Piece) :
    fill order places (pieces.map (restyle r)) = fill order places pieces := by
  induction pieces generalizing places with
  | nil => rfl
  | cons piece rest ih =>
    rw [List.map_cons]
    cases piece with
    | byte b => exact congrArg (b :: ·) (ih places)
    | slot p =>
      cases places with
      | nil => exact congrArg (order.bytes Format.slotSize 0 ++ ·) (ih [])
      | cons place places => exact congrArg (order.bytes Format.slotSize place ++ ·) (ih places)

end Piece

/-! ## Encoding -/

namespace Codec

/-- `mirror` encodes a restyled struct as `inner` does the struct. -/
def MirrorsEncoder (inner mirror : StructEncoder) : Prop :=
  ∀ layout values start,
    mirror (layout.restyle r) values start =
      (inner layout values start).map (List.map (Piece.restyle r))

section Encoding

variable {r} {inner mirror : StructEncoder} (hinner : MirrorsEncoder r inner mirror) (c : Codec)
  (depth : Nat) (f : PlacedField)

include hinner in
theorem encodeStructs_restyle (field : String) (layout : StructLayout) (start : Nat)
    (items : List Value) :
    encodeStructs mirror field (layout.restyle r) start items =
      (encodeStructs inner field layout start items).map (List.map (Piece.restyle r)) := by
  induction items generalizing start with
  | nil => rfl
  | cons item rest ih =>
    rw [encodeStructs, encodeStructs]
    cases item.fields? with
    | none => rfl
    | some members =>
      dsimp only
      rw [hinner]
      refine map_bind_eq_map fun pieces => ?_
      rw [Piece.size_restyle, ih]
      exact map_bind_eq_map fun others => congrArg Except.ok List.map_append.symm

theorem encodeSlot_restyle (field : String) (layout : StructLayout) (item : Value) :
    encodeSlot field (layout.restyle r) depth item =
      (encodeSlot field layout depth item).map (Piece.restyle r) := by
  unfold encodeSlot
  cases item.fields? <;> rfl

include hinner in
theorem encodeItems_restyle (start : Nat) (items : List Value) :
    encodeItems (c.restyle r) mirror depth (f.restyle r) start items =
      (encodeItems c inner depth f start items).map (List.map (Piece.restyle r)) := by
  -- No box is taken notice of, so the format may be that of the field as it is.
  have hformat : encodeItems (c.restyle r) mirror depth (f.restyle r) start items =
      encodeItems (c.restyle r) mirror depth { f.restyle r with format := f.format } start items :=
    r.apply_format
      (fun format => encodeItems (c.restyle r) mirror depth { f.restyle r with format } start items)
      (fun format => by cases format <;> rfl) f.format
  have hstruct : (c.restyle r).structOf { f.restyle r with format := f.format } =
      (c.structOf f).map (StructLayout.restyle r) := c.structOf_restyle r f
  rw [hformat, encodeItems, encodeItems, hstruct]
  dsimp only
  split
  · refine bind_eq_map fun parts => congrArg Except.ok ?_
    exact (Piece.map_restyle_ofBytes r _).symm
  · exact map_bind_eq_map fun layout => encodeStructs_restyle hinner f.name layout start items
  · exact map_bind_eq_map fun layout => mapM_eq_map (encodeSlot_restyle depth f.name layout) items

include hinner in
theorem encodeValue_restyle (siblings : Fields) (start : Nat) (value : Value) :
    encodeValue (c.restyle r) mirror depth (f.restyle r) siblings start value =
      (encodeValue c inner depth f siblings start value).map (List.map (Piece.restyle r)) := by
  have hscalar : (f.restyle r).format.scalar? = f.format.scalar? := r.scalar?_format _
  have harray : (f.restyle r).format.isArray = f.format.isArray := r.isArray_format _
  rw [encodeValue, encodeValue, hscalar, harray]
  cases f.format.scalar? with
  | some e =>
    refine bind_eq_map fun bytes => congrArg Except.ok ?_
    exact (Piece.map_restyle_ofBytes r bytes).symm
  | none =>
    dsimp only
    split
    · cases value.items? with
      | none => rfl
      | some items => exact bind_eq_map fun _ => encodeItems_restyle hinner c depth f start items
    · cases value.fields? with
      | none => rfl
      | some members =>
        dsimp only
        rw [structOf_restyle]
        exact map_bind_eq_map fun layout => hinner layout members start

include hinner in
/-- **Restyled fields are encoded as the fields are.** -/
theorem encodeFields_restyle (values : Fields) (base : Nat) (endOffset : Offset) (place : Nat)
    (known : Known) (fields : List PlacedField) :
    encodeFields (c.restyle r) mirror depth values base endOffset place known
        (fields.map (PlacedField.restyle r)) =
      (encodeFields c inner depth values base endOffset place known fields).map
        (List.map (Piece.restyle r)) := by
  induction fields generalizing place known with
  | nil => exact bind_eq_map fun _ => rfl
  | cons f rest ih =>
    rw [List.map_cons, encodeFields, encodeFields]
    refine bind_eq_map fun present => ?_
    split
    · have hname : (f.restyle r).name = f.name := rfl
      rw [hname]
      cases values.find? f.name with
      | none => rfl
      | some value =>
        dsimp only
        refine bind_eq_map fun _ => ?_
        rw [encodeValue_restyle hinner]
        refine map_bind_eq_map fun pieces => ?_
        rw [Piece.size_restyle]
        refine bind_eq_map fun header => ?_
        have hknown : known.record (f.restyle r).toField value (Piece.size pieces) =
          known.record f.toField value (Piece.size pieces) := known.record_restyle r ..
        rw [hknown, ih]
        refine map_bind_eq_map fun others => congrArg Except.ok ?_
        simp
    · exact ih place (known.without f.name)

end Encoding

variable (c : Codec)

/-- **A restyled struct is encoded as the struct is.** The induction is on how deep structs nest. -/
theorem mirrorsEncoder_encodeStruct (depth : Nat) :
    MirrorsEncoder r (encodeStruct c depth) (encodeStruct (c.restyle r) depth) := by
  induction depth with
  | zero => exact fun _ _ _ => rfl
  | succ depth ih =>
    intro layout values start
    exact encodeFields_restyle ih c depth values start layout.endOffset start .nothing layout.members

theorem encodePointees_restyle (start : Nat) (elements : List Pointee) :
    encodePointees (c.restyle r) start (elements.map (Pointee.restyle r)) =
      (encodePointees c start elements).map fun x => (x.1, x.2.map (Piece.restyle r)) := by
  induction elements generalizing start with
  | nil => rfl
  | cons p rest ih =>
    rw [List.map_cons, encodePointees, encodePointees]
    split
    · have hstruct : encodeStruct (c.restyle r) (p.restyle r).depth (p.restyle r).layout
          (p.restyle r).values start =
            (encodeStruct c p.depth p.layout p.values start).map (List.map (Piece.restyle r)) :=
        mirrorsEncoder_encodeStruct r c p.depth p.layout p.values start
      rw [hstruct]
      refine map_bind_eq_map fun pieces => ?_
      rw [Piece.size_restyle, ih]
      refine map_bind_eq_map fun others => congrArg Except.ok ?_
      simp
    · rfl

/-- Elements are encoded alike on each level, and their slots are those of the restyled pieces. -/
theorem encodeLevels_restyle (levels start : Nat) (elements : List Pointee) :
    encodeLevels (c.restyle r) levels start (elements.map (Pointee.restyle r)) =
      (encodeLevels c levels start elements).map fun x => (x.1, x.2.map (Piece.restyle r)) := by
  induction levels generalizing start elements with
  | zero =>
    cases elements with
    | nil => rfl
    | cons p rest => rfl
  | succ levels ih =>
    cases elements with
    | nil => rfl
    | cons p rest =>
      simp only [List.map_cons, encodeLevels]
      rw [← List.map_cons, encodePointees_restyle]
      refine map_bind_eq_map fun first => ?_
      dsimp only
      rw [Piece.size_restyle, Piece.pointees_restyle, ih]
      refine map_bind_eq_map fun others => congrArg Except.ok ?_
      simp

/-- **The bytes do not depend on the looks of fields.** -/
theorem encode_restyle (container : ContainerLayout) (values : Fields) :
    encode (c.restyle r) (container.restyle r) values = encode c container values := by
  have hfields : encodeFields (c.restyle r) (encodeStruct (c.restyle r) c.nesting) c.nesting values 0
      container.endOffset 0 .nothing (container.fields.map (PlacedField.restyle r)) = _ :=
    encodeFields_restyle (mirrorsEncoder_encodeStruct r c c.nesting) c c.nesting values 0
      container.endOffset 0 .nothing container.fields
  unfold encode
  rw [nesting_restyle]
  dsimp only [ContainerLayout.restyle]
  rw [hfields]
  refine map_bind_eq fun inline => ?_
  rw [Piece.size_restyle, Piece.pointees_restyle, encodeLevels_restyle]
  refine map_bind_eq fun behind => congrArg Except.ok ?_
  dsimp only
  rw [← List.map_append, Piece.fill_restyle]
  rfl

/-! ## Decoding -/

/-- `mirror` decodes a restyled struct as `inner` does the struct. -/
def MirrorsDecoder (inner mirror : StructDecoder) : Prop :=
  ∀ layout, mirror (layout.restyle r) = inner layout

section Decoding

variable {r} {inner mirror : StructDecoder} (hinner : MirrorsDecoder r inner mirror)
  (data : Array UInt8) (f : PlacedField)

include hinner in
theorem decodeInline_restyle (layout : StructLayout) :
    decodeInline mirror (layout.restyle r) = decodeInline inner layout := by
  funext cur
  unfold decodeInline
  rw [hinner]

include hinner in
theorem decodeStructs_restyle (layout : StructLayout) (count : Nat) (cur : Cursor)
    (done : List Value) :
    decodeStructs mirror (layout.restyle r) count cur done =
      decodeStructs inner layout count cur done := by
  induction count generalizing cur done with
  | zero => rfl
  | succ count ih => simp only [decodeStructs, decodeInline_restyle hinner, ih]

include hinner in
theorem decodePointees_restyle (layout : StructLayout) (places : List Nat) (cur : Cursor)
    (done : List Value) :
    decodePointees mirror (layout.restyle r) places cur done =
      decodePointees inner layout places cur done := by
  induction places generalizing cur done with
  | nil => rfl
  | cons place places ih => simp only [decodePointees, hinner layout, ih]

include hinner in
theorem decodeItems_restyle (count : Nat) (cur : Cursor) :
    decodeItems (c.restyle r) data mirror (f.restyle r) count cur =
      decodeItems c data inner f count cur := by
  have hformat : decodeItems (c.restyle r) data mirror (f.restyle r) count cur =
      decodeItems (c.restyle r) data mirror { f.restyle r with format := f.format } count cur :=
    r.apply_format
      (fun format => decodeItems (c.restyle r) data mirror { f.restyle r with format } count cur)
      (fun format => by cases format <;> rfl) f.format
  have hstruct : (c.restyle r).structOf { f.restyle r with format := f.format } =
      (c.structOf f).map (StructLayout.restyle r) := c.structOf_restyle r f
  rw [hformat, decodeItems, decodeItems, hstruct]
  dsimp only
  split
  · rfl
  · exact map_bind_eq fun layout => decodeStructs_restyle hinner layout count cur []
  · refine map_bind_eq fun layout => bind_congr fun slots => ?_
    rw [decodePointees_restyle hinner]

include hinner in
theorem decodeValue_restyle (siblings : Fields) (cur : Cursor) :
    decodeValue (c.restyle r) data mirror (f.restyle r) siblings cur =
      decodeValue c data inner f siblings cur := by
  have hscalar : (f.restyle r).format.scalar? = f.format.scalar? := r.scalar?_format _
  have harray : (f.restyle r).format.isArray = f.format.isArray := r.isArray_format _
  rw [decodeValue, decodeValue, hscalar, harray]
  cases f.format.scalar? with
  | some e => rfl
  | none =>
    dsimp only
    split
    · refine bind_congr fun count => ?_
      rw [decodeItems_restyle c hinner]
    · rw [structOf_restyle]
      exact map_bind_eq fun layout => congrFun (decodeInline_restyle hinner layout) cur

include hinner in
/-- **Restyled fields are decoded as the fields are.** -/
theorem decodeFields_restyle (base : Nat) (endOffset : Offset) (values : Fields) (known : Known)
    (cur : Cursor) (fields : List PlacedField) :
    decodeFields (c.restyle r) data mirror base endOffset values known cur
        (fields.map (PlacedField.restyle r)) =
      decodeFields c data inner base endOffset values known cur fields := by
  induction fields generalizing values known cur with
  | nil => rfl
  | cons f rest ih =>
    rw [List.map_cons, decodeFields, decodeFields]
    refine bind_congr fun present => ?_
    split
    · have hoffset : (f.restyle r).offset = f.offset := rfl
      rw [hoffset]
      cases f.offset.evaluate? known with
      | none => rfl
      | some offset =>
        refine bind_congr fun declared? => ?_
        rw [decodeValue_restyle c hinner]
        refine bind_congr fun decoded => bind_congr fun _ => ?_
        have hknown : known.record (f.restyle r).toField decoded.1
            (decoded.2.position - (base + offset)) =
              known.record f.toField decoded.1 (decoded.2.position - (base + offset)) :=
          known.record_restyle r ..
        rw [hknown]
        exact ih ..
    · exact ih values (known.without f.name) cur

end Decoding

/-- **A restyled struct is decoded as the struct is.** The induction is on how deep structs nest. -/
theorem mirrorsDecoder_decodeStruct (data : Array UInt8) (depth : Nat) :
    MirrorsDecoder r (decodeStruct c data depth) (decodeStruct (c.restyle r) data depth) := by
  induction depth with
  | zero => exact fun _ => rfl
  | succ depth ih =>
    intro layout
    funext start cur
    exact decodeFields_restyle c ih data start layout.endOffset [] .nothing cur layout.members

/-- **The values do not depend on the looks of fields.** -/
theorem decode_restyle (container : ContainerLayout) (bytes : List UInt8) :
    decode (c.restyle r) (container.restyle r) bytes = decode c container bytes := by
  have hfields : (c.restyle r).read (container.restyle r) bytes = c.read container bytes := by
    unfold read
    rw [nesting_restyle]
    exact decodeFields_restyle c (mirrorsDecoder_decodeStruct r c bytes.toArray c.nesting)
      bytes.toArray 0 container.endOffset [] .nothing {} container.fields
  rw [decode, decode, hfields]

end Codec

end WirePlan
