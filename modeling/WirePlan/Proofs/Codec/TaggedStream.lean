import WirePlan.Proofs.Codec.EncodeDecode
import WirePlan.Proofs.Codec.RoundTrip
import WirePlan.Proofs.Schema.WellFormed

/-!
# Tagged values one behind the other

Under headers a container can be walked without its plan: a tag, a length, as many bytes, and again
until nothing is left (`ByteOrder.walk?`). What the encoder writes is such a stream, with the tags
of the fields on the wire (`walk?_of_encode`).

Three things have to come together. A header is written for each field that is there and tells the
bytes of its value (`walk?_of_encodeFields`), and no header stands inside a struct. Nothing stands
behind the fields: a list that reaches no array with elements elsewhere is encoded without slots
(`Codec.encode_of_direct`), and under headers every list is one (`Plan.Declares.direct`). And the
tags are there and all different, as the declared list was checked for it and the plan only
rearranges that list (`Plan.declares_ofSchema`).
-/

namespace WirePlan

/-! ## The walk -/

/-- A value under a header: its tag, and as many bytes as the header tells. -/
structure TaggedValue where
  tag : UInt8
  value : List UInt8
  deriving DecidableEq, Repr

namespace ByteOrder

/-- The tagged values that bytes consist of: a tag of one byte, a length of two, and that many bytes
of a value, one behind the other until nothing is left. -/
def walk? (order : ByteOrder) : List UInt8 → Option (List TaggedValue)
  | [] => some []
  | tag :: a :: b :: rest =>
    let length := order.number [a, b]
    if length ≤ rest.length then
      (walk? order (rest.drop length)).map (⟨tag, rest.take length⟩ :: ·)
    else none
  | _ => none
termination_by bytes => bytes.length
decreasing_by
  simp only [List.length_drop, List.length_cons]
  omega

theorem walk?_nil (order : ByteOrder) : order.walk? [] = some [] := by
  rw [walk?]

/-- A header and as many bytes as it tells are walked as one value. -/
theorem walk?_append (order : ByteOrder) (tag : UInt8) {value : List UInt8}
    (h : value.length < UInt16.size) (rest : List UInt8) :
    order.walk? (tag :: order.bytes 2 value.length ++ (value ++ rest)) =
      (order.walk? rest).map (⟨tag, value⟩ :: ·) := by
  obtain ⟨a, b, hbytes⟩ := List.length_eq_two.1 (order.length_bytes 2 value.length)
  have hlength : order.number [a, b] = value.length := by
    rw [← hbytes]
    exact order.number_bytes h
  rw [hbytes, List.cons_append, List.cons_append, List.cons_append, List.nil_append, walk?,
    hlength, List.drop_left, List.take_left, if_pos]
  simp

end ByteOrder

namespace Codec

variable {c : Codec} {inner : StructEncoder} {depth : Nat}

/-! ## Lists without slots -/

/-- The encoder of structs writes no slots for those that reach none. -/
def LeavesNoSlots (c : Codec) (inner : StructEncoder) : Prop :=
  ∀ ⦃t : String⦄ ⦃layout : StructLayout⦄, c.plan.struct? t = some layout →
    Direct c.plan.struct? layout.members → ∀ ⦃values : Fields⦄ ⦃start : Nat⦄ ⦃pieces : List Piece⦄,
      inner layout values start = .ok pieces → Piece.pointees pieces = []

section NoSlots

variable (hinner : LeavesNoSlots c inner)

include hinner

theorem pointees_encodeStructs {t : String} {layout : StructLayout}
    (ht : c.plan.struct? t = some layout) (hdirect : Direct c.plan.struct? layout.members)
    {field : String} {start : Nat} {items : List Value} {pieces : List Piece}
    (h : encodeStructs inner field layout start items = .ok pieces) :
    Piece.pointees pieces = [] := by
  induction items generalizing start pieces with
  | nil =>
    cases h
    rfl
  | cons item items ih =>
    unfold encodeStructs at h
    split at h
    · cases h
    · obtain ⟨first, hfirst, h⟩ := bind_eq_ok.1 h
      obtain ⟨others, hothers, h⟩ := bind_eq_ok.1 h
      cases pure_eq_ok.1 h
      rw [Piece.pointees_append, hinner ht hdirect hfirst, ih hothers, List.append_nil]

/-- A field of a list that reaches no slots is encoded without any. The cases are those of the
formats: a value without parts, an array of such, one struct, an array of structs. -/
theorem pointees_encodeValue {fields : List PlacedField} (hdirect : Direct c.plan.struct? fields)
    {f : PlacedField} (hf : f ∈ fields) {siblings : Fields} {start : Nat} {value : Value}
    {pieces : List Piece} (h : encodeValue c inner depth f siblings start value = .ok pieces) :
    Piece.pointees pieces = [] := by
  cases hscalar : f.format.scalar? with
  | some e =>
    rw [encodeValue, hscalar] at h
    obtain ⟨bytes, -, h⟩ := bind_eq_ok.1 h
    cases pure_eq_ok.1 h
    exact Piece.pointees_ofBytes bytes
  | none =>
    have hmembers : ∀ {t layout}, f.format.isStructShaped = true → f.structType? = some t →
        c.plan.struct? t = some layout → Direct c.plan.struct? layout.members :=
      fun hshaped htype hstruct => hdirect.members hf hshaped htype hstruct
    cases hformat : f.format with
    | int _ | uuid | string | ipv4 | ipv6 | refIpv4 | refIpv6 =>
      rw [hformat] at hscalar
      cases hscalar
    | array e =>
      obtain ⟨items, -, -, h⟩ := (encodeValue_array_eq_ok (by rw [hformat]; rfl)).1 h
      rw [encodeItems, hformat] at h
      obtain ⟨parts, -, h⟩ := bind_eq_ok.1 h
      cases pure_eq_ok.1 h
      exact Piece.pointees_ofBytes _
    | struct | refStruct =>
      have hsingle : f.format.isArray = false := by
        rw [hformat]
        rfl
      obtain ⟨members, layout, -, hlayout, h⟩ := (encodeValue_struct_eq_ok hscalar hsingle).1 h
      obtain ⟨t, htype, hstruct⟩ := structOf_eq_ok.1 hlayout
      exact hinner hstruct (hmembers (by rw [hformat]; rfl) htype hstruct) h
    | structArray =>
      obtain ⟨items, -, -, h⟩ := (encodeValue_array_eq_ok (by rw [hformat]; rfl)).1 h
      rw [encodeItems, hformat] at h
      obtain ⟨layout, hlayout, h⟩ := bind_eq_ok.1 h
      obtain ⟨t, htype, hstruct⟩ := structOf_eq_ok.1 hlayout
      exact pointees_encodeStructs hinner hstruct
        (hmembers (by rw [hformat]; rfl) htype hstruct) h
    | refStructArray => exact absurd hformat (hdirect (.here hf))

theorem pointees_encodeFields {all : List PlacedField} (hdirect : Direct c.plan.struct? all)
    {fields : List PlacedField} (hsub : ∀ f ∈ fields, f ∈ all) {values : Fields} {base place : Nat}
    {endOffset : Offset} {known : Known} {pieces : List Piece}
    (h : encodeFields c inner depth values base endOffset place known fields = .ok pieces) :
    Piece.pointees pieces = [] := by
  induction fields generalizing place known pieces with
  | nil =>
    obtain ⟨-, rfl⟩ := encodeFields_nil_eq_ok.1 h
    rfl
  | cons f rest ih =>
    have hrest : ∀ g ∈ rest, g ∈ all := fun g hg => hsub g (.tail _ hg)
    rcases encodeFields_cons_eq_ok.1 h with ⟨-, h⟩ | ⟨-, value, offset, valuePieces, header, others,
      -, -, -, hpieces, -, hothers, rfl⟩
    · exact ih hrest h
    · rw [Piece.pointees_append, Piece.pointees_append, Piece.pointees_ofBytes,
        pointees_encodeValue hinner hdirect (hsub f (.head _)) hpieces, ih hrest hothers]
      rfl

end NoSlots

/-- Structs that reach no slots are encoded without any. The induction is on how deep structs
nest. -/
theorem leavesNoSlots_encodeStruct (c : Codec) (depth : Nat) :
    LeavesNoSlots c (encodeStruct c depth) := by
  induction depth with
  | zero =>
    intro t layout _ _ values start pieces h
    cases h
  | succ depth ih =>
    intro t layout _ hdirect values start pieces h
    exact pointees_encodeFields ih hdirect (fun _ hf => hf) h

/-- **A container that reaches no slots has nothing behind its fields.** -/
theorem encode_of_direct {container : ContainerLayout}
    (hdirect : Direct c.plan.struct? container.fields) {values : Fields} {bytes : List UInt8}
    (h : c.encode container values = .ok bytes) :
    ∃ inline, encodeFields c (encodeStruct c c.nesting) c.nesting values 0 container.endOffset 0
        .nothing container.fields = .ok inline ∧
      Piece.pointees inline = [] ∧ bytes = Piece.fill c.order [] inline := by
  obtain ⟨inline, hinline, h⟩ := bind_eq_ok.1 h
  obtain ⟨⟨places, behind⟩, hlevels, h⟩ := bind_eq_ok.1 h
  have hnone := pointees_encodeFields (leavesNoSlots_encodeStruct c c.nesting) hdirect
    (fun _ hf => hf) hinline
  rw [hnone, encodeLevels] at hlevels
  cases hlevels
  refine ⟨inline, hinline, hnone, ?_⟩
  rw [← pure_eq_ok.1 h, List.append_nil]

/-! ## Fields under headers -/

/-- The header of a field that has one is its tag and the length of its value. -/
theorem encodeHeader_eq_ok {f : PlacedField} (hheader : f.header ≠ 0) {bytes : Nat}
    {header : List UInt8} :
    encodeHeader c f bytes = .ok header ↔
      bytes < UInt16.size ∧ header = f.tag?.getD 0 :: c.order.bytes 2 bytes := by
  rw [encodeHeader, if_neg hheader, ite_eq_ok, eq_comm (a := header)]

/-- **What is written of fields under headers is a stream**, with the tags of those that are there
in their order. -/
theorem walk?_of_encodeFields {fields : List PlacedField}
    (hheader : ∀ f ∈ fields, f.header ≠ 0) {values : Fields} {base place : Nat}
    {endOffset : Offset} {known : Known} {pieces : List Piece}
    (h : encodeFields c inner depth values base endOffset place known fields = .ok pieces)
    (hnone : Piece.pointees pieces = []) :
    ∃ tagged, c.order.walk? (Piece.fill c.order [] pieces) = some tagged ∧
      tagged.map (·.tag) = (fields.filter (·.isOnWire values)).map (·.tag?.getD 0) := by
  induction fields generalizing place known pieces with
  | nil =>
    obtain ⟨-, rfl⟩ := encodeFields_nil_eq_ok.1 h
    exact ⟨[], c.order.walk?_nil, rfl⟩
  | cons f rest ih =>
    have hrest : ∀ g ∈ rest, g.header ≠ 0 := fun g hg => hheader g (.tail _ hg)
    rcases encodeFields_cons_eq_ok.1 h with ⟨habsent, h⟩ | ⟨hpresent, value, offset, valuePieces,
      header, others, -, -, -, -, hwritten, hothers, rfl⟩
    · rw [List.filter_cons_of_neg (by simp [PlacedField.isOnWire_of_allHold habsent])]
      exact ih hrest h hnone
    · rw [List.filter_cons_of_pos (PlacedField.isOnWire_of_allHold hpresent)]
      obtain ⟨hshort, rfl⟩ := (encodeHeader_eq_ok (hheader f (.head _))).1 hwritten
      rw [Piece.pointees_append, Piece.pointees_append, Piece.pointees_ofBytes, List.nil_append,
        List.append_eq_nil_iff] at hnone
      obtain ⟨tagged, hwalk, htags⟩ := ih hrest hothers hnone.2
      -- Without slots the value and what follows it are filled apart from each other.
      have hplaces : ([] : List Nat).length = (Piece.pointees valuePieces).length := by
        rw [hnone.1]
        rfl
      have hsplit : Piece.fill c.order [] (valuePieces ++ others) =
          Piece.fill c.order [] valuePieces ++ Piece.fill c.order [] others :=
        Piece.fill_append c.order [] hplaces others
      rw [Piece.fill_ofBytes_append, hsplit]
      rw [← Piece.length_fill c.order [] valuePieces] at hshort ⊢
      rw [c.order.walk?_append _ hshort, hwalk]
      exact ⟨_, rfl, by rw [List.map_cons, List.map_cons, htags]⟩

end Codec

/-! ## The lists of a plan -/

/-- The fields of a plan are those of a declared list that was checked, typed and rearranged. -/
def FieldChecker.Declares (c : FieldChecker) (fields : List PlacedField) : Prop :=
  ∃ declared typed, c.AdmitsAll declared ∧ List.Forall₂ c.TypedAs declared typed ∧
    (fields.map (·.toField)).Perm typed

/-- Every list of the plan comes from one of the declarations. -/
structure Plan.Declares (plan : Plan) (e : Expanded) (options : Options) : Prop where
  containers : ∀ m ∈ plan.messages, ∀ c ∈ m.containers, ∃ place,
    (e.checker options false place).Declares c.fields ∧
      ∀ f ∈ c.fields, f.header = options.variant.headerSize
  members : ∀ t layout, plan.struct? t = some layout → ∃ place,
    (e.checker options true place).Declares layout.members

/-- The plan of declarations that pass the check takes every list from them. -/
theorem Plan.declares_ofSchema {e : Expanded} {options : Options} {schema : Schema} {plan : Plan}
    (hschema : Schema.ofExpanded e options = .ok schema) (h : ofSchema schema = .ok plan) :
    plan.Declares e options := by
  obtain ⟨hwellFormed, htypes⟩ := Schema.wellFormed_of_ofExpanded hschema
  obtain ⟨hfound, -, hmessages⟩ := laidOut_ofSchema h
  constructor
  · intro m hm c hc
    obtain ⟨m', hm', hlaid⟩ := exists_of_mem_right hmessages hm
    obtain ⟨declared, hdeclared, htyped⟩ := exists_of_mem_right htypes.messages hm'
    obtain ⟨c', hc', hfields⟩ := exists_of_mem_right hlaid.containers hc
    obtain ⟨list, hlist, -, hall⟩ := exists_of_mem_right htyped.containers hc'
    refine ⟨_, ⟨list.2, c'.fields, hwellFormed.fields declared hdeclared list hlist, hall,
      WireOrder.perm_of_wireOrder hfields.fields.order⟩, fun f hf => ?_⟩
    rw [hfields.fields.placed.header_eq hf, htypes.variant]
  · intro t layout hlayout
    obtain ⟨-, ⟨s, hs, -, hlaid⟩, -⟩ := hfound t layout hlayout
    obtain ⟨declared, hdeclared, -, hall⟩ :=
      exists_of_mem_right htypes.structs (List.mem_of_find?_eq_some hs)
    exact ⟨_, declared.members, s.members, hwellFormed.members declared hdeclared, hall,
      WireOrder.perm_of_wireOrder hlaid.order⟩

/-- A typed field is one of its list, admitted there. -/
theorem FieldChecker.Declares.exists_admits {c : FieldChecker} {fields : List PlacedField}
    (h : c.Declares fields) {f : PlacedField} (hf : f ∈ fields) :
    ∃ declared g, c.Admits declared g f.format := by
  obtain ⟨declared, typed, hadmits, hall, hperm⟩ := h
  have hmem : f.toField ∈ typed := hperm.mem_iff.1 (List.mem_map_of_mem hf)
  obtain ⟨g, hg, htyped⟩ := exists_of_mem_right hall hmem
  obtain ⟨format, hadmitted⟩ := hadmits.fields g hg
  cases htyped.format.symm.trans hadmitted.known
  exact ⟨declared, g, hadmitted⟩

/-- In a list under headers every field has a tag, and no two have the same. -/
theorem FieldChecker.Declares.tags {c : FieldChecker} {fields : List PlacedField}
    (h : c.Declares fields) (hlist : c.ofStruct = false) (htlv : c.options.variant = .tlv) :
    (∀ f ∈ fields, f.tag?.isSome) ∧ (fields.map (·.tag?)).Nodup := by
  obtain ⟨declared, typed, hadmits, hall, hperm⟩ := h
  have htags : (fields.map (·.tag?)).Perm (declared.map (·.tag?)) := by
    have hsame : typed.map (·.tag?) = declared.map (·.tag?) :=
      map_eq_of_forall₂ (hall.imp fun _ _ ht => ht.tag)
    have hmapped := hperm.map (·.tag?)
    rwa [List.map_map, hsame] at hmapped
  refine ⟨fun f hf => ?_, htags.nodup_iff.2 (hadmits.tags hlist htlv)⟩
  obtain ⟨g, hg, htag⟩ := List.mem_map.1 (htags.mem_iff.1 (List.mem_map_of_mem hf))
  rw [← htag]
  exact hadmits.tagged hlist htlv g hg

/-- Under headers no list reaches an array whose elements stand elsewhere. -/
theorem Plan.Declares.direct {plan : Plan} {e : Expanded} {options : Options}
    (h : plan.Declares e options) (htlv : options.variant = .tlv) {c : FieldChecker}
    (hc : c.options = options) {fields : List PlacedField} (hfields : c.Declares fields) :
    Codec.Direct plan.struct? fields := by
  intro f hf
  induction hf generalizing c with
  | here hf =>
    obtain ⟨_, _, hadmits⟩ := hfields.exists_admits hf
    exact fun hslots => hadmits.direct hslots (hc ▸ htlv)
  | inside _ _ _ hstruct _ ih =>
    obtain ⟨place, hmembers⟩ := h.members _ _ hstruct
    exact ih rfl hmembers

/-! ## Containers -/

/-- **Under headers an encoded container is a well-formed stream.** In every plan of a source, under
either byte order, a walk that knows nothing of the plan takes the bytes of a container apart into
tagged values with nothing left over. No tag comes twice, and the tags are, in the order of the
plan, those of exactly the fields whose prerequisites hold. -/
theorem walk?_of_encode {source : String} {options : Options} {plan : Plan}
    (hplan : Plan.ofSource source options = .ok plan) (htlv : options.variant = .tlv)
    {m : MessageLayout} (hm : m ∈ plan.messages) {container : ContainerLayout}
    (hcontainer : container ∈ m.containers) (order : ByteOrder) {values : Fields}
    {bytes : List UInt8} (h : Codec.encode ⟨plan, order⟩ container values = .ok bytes) :
    ∃ tagged, order.walk? bytes = some tagged ∧ (tagged.map (·.tag)).Nodup ∧
      (tagged.map (·.tag)).map some =
        (container.fields.filter (·.isOnWire values)).map (·.tag?) := by
  rw [Plan.ofSource_eq] at hplan
  obtain ⟨schema, hschema, hlaid⟩ := bind_eq_ok.1 hplan
  obtain ⟨declarations, -, hschema⟩ := bind_eq_ok.1 hschema
  obtain ⟨e, -, hschema⟩ := bind_eq_ok.1 hschema
  have hdeclares := Plan.declares_ofSchema hschema hlaid
  obtain ⟨place, hfields, hsize⟩ := hdeclares.containers m hm container hcontainer
  obtain ⟨hthere, hdistinct⟩ := hfields.tags rfl htlv
  have hheader : ∀ f ∈ container.fields, f.header ≠ 0 := by
    intro f hf
    rw [hsize f hf, htlv]
    exact Nat.succ_ne_zero 2
  obtain ⟨inline, hinline, hnone, rfl⟩ :=
    Codec.encode_of_direct (c := ⟨plan, order⟩) (hdeclares.direct htlv rfl hfields) h
  obtain ⟨tagged, hwalk, htags⟩ := Codec.walk?_of_encodeFields hheader hinline hnone
  have hsome : (tagged.map (·.tag)).map some =
      (container.fields.filter (·.isOnWire values)).map (·.tag?) := by
    rw [htags, List.map_map]
    refine List.map_congr_left fun f hf => ?_
    obtain ⟨tag, htag⟩ := Option.isSome_iff_exists.1 (hthere f (List.mem_of_mem_filter hf))
    simp [htag]
  have hnodup : ((tagged.map (·.tag)).map some).Nodup := by
    rw [hsome]
    exact hdistinct.sublist (List.filter_sublist.map _)
  exact ⟨tagged, hwalk, hnodup.of_map some, hsome⟩

/-- Where nothing is counted, the field that the count gates leaves no tag. -/
theorem walk?_memo :
    Codec.encode ⟨memoPlan, .little⟩ memoContainer
        [("count", .ofNat .u8 0), ("pairs", .array [])] = .ok [1, 1, 0, 0, 3, 0, 0] ∧
      ∃ tagged, ByteOrder.walk? .little [1, 1, 0, 0, 3, 0, 0] = some tagged ∧
        (tagged.map (·.tag)).Nodup ∧ (tagged.map (·.tag)).map some = [some 1, some 3] := by
  have hencoded : Codec.encode ⟨memoPlan, .little⟩ memoContainer
      [("count", .ofNat .u8 0), ("pairs", .array [])] = .ok [1, 1, 0, 0, 3, 0, 0] :=
    toOption_eq_some.1 (by decide +kernel)
  exact ⟨hencoded, walk?_of_encode memoPlan_eq rfl (.head _) (.head _) .little hencoded⟩

end WirePlan
