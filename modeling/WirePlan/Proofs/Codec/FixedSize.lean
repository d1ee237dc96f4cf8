import WirePlan.Proofs.Codec.Coverage
import WirePlan.Proofs.Codec.Exact
import WirePlan.Proofs.Codec.TaggedStream

/-!
# Fixed sizes

A size that a plan calls fixed is told by the plan alone, from the absence of terms. What is written
and read of values comes from the values. That both agree goes back to the lists of the plan: every
field whose bytes depend on a value leaves a term behind (`WireSize.fixed?_of_term?`), so a list
that ends at a constant has fields of fixed sizes only (`PlacedFrom.fixed_of_isConstant`). A struct
of fixed size is such a list, and an array is never of fixed size, so fields of fixed size reach no
array at all, however deep (`direct_of_fixed`).

Whatever is encoded or decoded of such a field then takes the bytes of the plan
(`Codec.encode_fixed`, `Codec.position_of_decode_fixed`), and a container that ends at a constant is
encoded as that many bytes (`Codec.length_of_encode_isFixed`). No constant needs a bound: the
encoder only succeeds where it stands when the plan says so, and the decoder goes on where the plan
says.
-/

namespace WirePlan

/-! ## Sizes -/

/-- A size without a term is fixed. -/
theorem WireSize.fixed?_of_term? {size : WireSize} {field : String}
    (h : size.term? field = none) : size.fixed?.isSome := by
  cases size with
  | fixed n => rfl
  | lengthPrefixed n | composite t => cases h
  | repeated c e => cases e <;> cases h

/-- The fields of a list that ends at a constant are of fixed sizes. -/
theorem PlacedFrom.fixed_of_isConstant {header : Nat} {o endOffset : Offset}
    {fields : List PlacedField} (h : PlacedFrom header o fields endOffset)
    (hconstant : endOffset.isConstant = true) {f : PlacedField} (hf : f ∈ fields) :
    f.size.fixed?.isSome := by
  have hterms : endOffset.terms = [] := List.isEmpty_iff.1 hconstant
  cases hterm : f.size.term? f.name with
  | none => exact WireSize.fixed?_of_term? hterm
  | some t =>
    have hmem := h.mem_terms hf hterm
    rw [hterms] at hmem
    cases hmem

section Layouts

variable {structs : StructLayouts} {f : PlacedField}

/-- A field of fixed size is no array. -/
theorem SizeFits.isArray_of_fixed (hsized : SizeFits structs f.toField f.size)
    (hfixed : f.size.fixed?.isSome) : f.format.isArray = false := by
  generalize f.size = size at hsized hfixed
  cases hsized with
  | scalar hformat =>
    cases harray : f.format.isArray with
    | false => rfl
    | true =>
      rw [Codec.scalar?_of_isArray harray] at hformat
      cases hformat
  | string hformat => rw [hformat]; rfl
  | struct hformat => rcases hformat with hformat | hformat <;> rw [hformat] <;> rfl
  | array | strings | structArray | slots => cases hfixed

/-- A struct that a field of fixed size holds has members of fixed sizes. -/
theorem SizeFits.fixed_members (hstructs : structs.WellFormed)
    (hsized : SizeFits structs f.toField f.size) (hfixed : f.size.fixed?.isSome)
    (hshape : f.format.isStructShaped = true) {t : String} (htype : f.structType? = some t)
    {layout : StructLayout} (hstruct : structs t = some layout) {g : PlacedField}
    (hg : g ∈ layout.members) : g.size.fixed?.isSome := by
  have hsize : f.size = layout.size := by
    generalize f.size = size at hsized hfixed
    cases hsized with
    | struct _ htype' hstruct' =>
      cases htype.symm.trans htype'
      cases hstruct.symm.trans hstruct'
      rfl
    | scalar hformat => cases hf : f.format <;> simp_all [Format.scalar?, Format.isStructShaped]
    | string hformat => rw [hformat] at hshape; cases hshape
    | array | strings | structArray | slots => cases hfixed
  rw [hsize, (hstructs hstruct).size_eq, WireSize.ofStruct] at hfixed
  split at hfixed
  · next hconstant => exact (hstructs hstruct).members.placed.fixed_of_isConstant hconstant hg
  · cases hfixed

/-- **Fields of fixed sizes reach no array.** The induction is on the way to the field that is
reached. -/
theorem direct_of_fixed (hstructs : structs.WellFormed) {fields : List PlacedField}
    (hsized : ∀ f ∈ fields, SizeFits structs f.toField f.size)
    (hfixed : ∀ f ∈ fields, f.size.fixed?.isSome) : Codec.Direct structs fields := by
  intro g hg
  induction hg with
  | here hf =>
    intro hslots
    have hsingle := (hsized _ hf).isArray_of_fixed (hfixed _ hf)
    rw [hslots] at hsingle
    cases hsingle
  | inside hf hshape htype hstruct _ ih =>
    exact ih (hstructs hstruct).members.sized fun k hk =>
      (hsized _ hf).fixed_members hstructs (hfixed _ hf) hshape htype hstruct hk

end Layouts

/-! ## Values -/

namespace Codec

variable {c : Codec} (hplan : c.plan.WellFormed) {f : PlacedField} {n : Nat}
  (hsized : SizeFits c.plan.struct? f.toField f.size) (hfixed : f.size = .fixed n)

include hplan hsized hfixed

/-- A field of fixed size is encoded as so many bytes, none of them in slots. -/
theorem encode_fixed {depth start : Nat} {siblings : Fields} {value : Value} {pieces : List Piece}
    (h : encodeValue c (encodeStruct c depth) depth f siblings start value = .ok pieces) :
    Piece.size pieces = n ∧ Piece.pointees pieces = [] := by
  have hdirect : Direct c.plan.struct? [f] := direct_of_fixed hplan.structs
    (List.forall_mem_singleton.2 hsized) (List.forall_mem_singleton.2 (by rw [hfixed]; rfl))
  refine ⟨?_, pointees_encodeValue (leavesNoSlots_encodeStruct c depth) hdirect (.head _) h⟩
  rw [hfixed] at hsized
  generalize hsize : WireSize.fixed n = size at hsized
  cases hsized with
  | scalar hformat helement =>
    cases hsize
    rw [encodeValue, hformat] at h
    obtain ⟨bytes, hbytes, h⟩ := bind_eq_ok.1 h
    cases pure_eq_ok.1 h
    rw [Piece.size_ofBytes]
    exact Element.length_of_encode hbytes helement
  | struct hformat htype hstruct =>
    have hscalar : f.format.scalar? = none := by rcases hformat with heq | heq <;> rw [heq] <;> rfl
    have hsingle : f.format.isArray = false := by rcases hformat with heq | heq <;> rw [heq] <;> rfl
    obtain ⟨members, layout, rfl, hlayout, h⟩ := (encodeValue_struct_eq_ok hscalar hsingle).1 h
    cases (structOf_eq_ok.2 ⟨_, htype, hstruct⟩).symm.trans hlayout
    exact keepsSizes_encodeStruct hplan depth hstruct h n hsize.symm
  | string | array | strings | structArray | slots => cases hsize

/-- Behind a field of fixed size reading goes on so many bytes further. -/
theorem position_of_decode_fixed {data : Array UInt8} {depth : Nat} {seen : Fields} {value : Value}
    {cur after : Cursor}
    (h : decodeValue c data (decodeStruct c data depth) f seen cur = .ok (value, after)) :
    after.position = cur.position + n := by
  rw [hfixed] at hsized
  generalize hsize : WireSize.fixed n = size at hsized
  cases hsized with
  | scalar hformat helement =>
    cases hsize
    rw [decodeValue, hformat] at h
    obtain ⟨bytes, hspans, hbytes, -⟩ := Element.spans_of_decode 0 h
    rw [hspans.position, hbytes _ helement]
  | struct hformat htype hstruct =>
    have hscalar : f.format.scalar? = none := by rcases hformat with heq | heq <;> rw [heq] <;> rfl
    have hsingle : f.format.isArray = false := by rcases hformat with heq | heq <;> rw [heq] <;> rfl
    obtain ⟨_, hfound, hinline⟩ := (decodeValue_struct_eq_ok hscalar hsingle).1 h
    cases (structOf_eq_ok.2 ⟨_, htype, hstruct⟩).symm.trans hfound
    obtain ⟨⟨values, bytes, behind⟩, hread, hinline⟩ := bind_eq_ok.1 hinline
    cases pure_eq_ok.1 hinline
    rw [← size_of_decodeStruct (hplan.structs hstruct) hread hsize.symm]
    rfl
  | string | array | strings | structArray | slots => cases hsize

omit hsized hfixed in
/-- A list that ends at a constant is encoded as the bytes that the constant tells. -/
theorem length_of_encode_isFixed {header : Nat} {container : ContainerLayout}
    (hplaced : WellPlaced c.plan.struct? header container.fields container.endOffset)
    (hconstant : container.isFixed = true) {values : Fields} {bytes : List UInt8}
    (h : c.encode container values = .ok bytes) :
    bytes.length = container.endOffset.constant := by
  have hdirect : Direct c.plan.struct? container.fields :=
    direct_of_fixed hplan.structs hplaced.sized fun f hf =>
      hplaced.placed.fixed_of_isConstant hconstant hf
  obtain ⟨inline, hinline, -, rfl⟩ := encode_of_direct hdirect h
  obtain ⟨atEnd, size, hsize, hend, -, -⟩ := exists_known_of_encodeFields hinline
  rw [Piece.length_fill, ← Offset.eq_constant_of_evaluate? hsize hconstant]
  omega

end Codec

/-! ## Plans -/

/-- The field stands in a container of the plan or in one of its structs. -/
inductive Plan.HasField (plan : Plan) : PlacedField → Prop where
  | container {m : MessageLayout} {c : ContainerLayout} {f : PlacedField} (hm : m ∈ plan.messages)
      (hc : c ∈ m.containers) (hf : f ∈ c.fields) : HasField plan f
  | member {layout : StructLayout} {f : PlacedField} (hlayout : layout ∈ plan.structs)
      (hf : f ∈ layout.members) : HasField plan f

/-- Every field of the plan of a source has the size that its format calls for. -/
theorem Plan.HasField.sized {source : String} {options : Options} {plan : Plan}
    (hplan : Plan.ofSource source options = .ok plan) {f : PlacedField} (h : plan.HasField f) :
    SizeFits plan.struct? f.toField f.size := by
  have hwellFormed := wellFormed_ofSource hplan
  cases h with
  | container hm hc hf => exact (hwellFormed.containers _ hm _ hc).sized f hf
  | member hlayout hf =>
    rw [Plan.ofSource_eq] at hplan
    obtain ⟨schema, -, hlaid⟩ := bind_eq_ok.1 hplan
    obtain ⟨-, hall, -⟩ := laidOut_ofSchema hlaid
    obtain ⟨t, -, hfound⟩ := exists_of_mem_right hall hlayout
    exact (hwellFormed.structs hfound).members.sized f hf

/-- **Sizes that a plan calls fixed are fixed on the wire.** In every plan of a source, under either
byte order, a field of fixed size reaches no array whose elements stand elsewhere; whenever its
value is encoded, at any place and inside any structs, it takes so many bytes and leaves nothing to
be written elsewhere, and whenever it is decoded, from any data, reading goes on so many bytes
further. A container of fixed size is encoded as the bytes that its end tells, whatever its values
are. -/
theorem Codec.size_of_fixed {source : String} {options : Options} {plan : Plan}
    (hplan : Plan.ofSource source options = .ok plan) (order : ByteOrder) :
    (∀ f n, plan.HasField f → f.size = .fixed n →
      Direct plan.struct? [f] ∧
      (∀ depth siblings start value pieces,
        encodeValue ⟨plan, order⟩ (encodeStruct ⟨plan, order⟩ depth) depth f siblings start value =
            .ok pieces →
          Piece.size pieces = n ∧ Piece.pointees pieces = []) ∧
      ∀ data depth seen cur value after,
        decodeValue ⟨plan, order⟩ data (decodeStruct ⟨plan, order⟩ data depth) f seen cur =
            .ok (value, after) →
          after.position = cur.position + n) ∧
    ∀ m ∈ plan.messages, ∀ container ∈ m.containers, container.isFixed = true →
      ∀ values bytes, encode ⟨plan, order⟩ container values = .ok bytes →
        bytes.length = container.endOffset.constant := by
  have hwellFormed := Plan.wellFormed_ofSource hplan
  refine ⟨fun f n hf hfixed => ?_, fun m hm container hcontainer hconstant values bytes h => ?_⟩
  · have hsized := hf.sized hplan
    refine ⟨?_, fun depth siblings start value pieces h => ?_,
      fun data depth seen cur value after h => ?_⟩
    · exact direct_of_fixed hwellFormed.structs (List.forall_mem_singleton.2 hsized)
        (List.forall_mem_singleton.2 (by rw [hfixed]; rfl))
    · exact encode_fixed (c := ⟨plan, order⟩) hwellFormed hsized hfixed h
    · exact position_of_decode_fixed (c := ⟨plan, order⟩) hwellFormed hsized hfixed h
  · exact length_of_encode_isFixed (c := ⟨plan, order⟩) hwellFormed
      (hwellFormed.containers m hm container hcontainer) hconstant h

/-- A service with one container of fixed size: a struct that holds an empty one, a flag, and an
empty struct that the flag gates. -/
def stampSource : String :=
  "[\x7b\"type\": \"Service\", \"name\": \"S\"\x7d,
    \x7b\"type\": \"Struct\", \"name\": \"Gap\", \"contents\": []\x7d,
    \x7b\"type\": \"Struct\", \"name\": \"Stamp\", \"contents\": [
      \x7b\"name\": \"day\", \"format\": \"guint16\"\x7d,
      \x7b\"name\": \"gap\", \"format\": \"struct\", \"struct-type\": \"Gap\"\x7d,
      \x7b\"name\": \"host\", \"format\": \"ipv4\"\x7d]\x7d,
    \x7b\"type\": \"Message\", \"name\": \"M\", \"id\": 1, \"request\": [
      \x7b\"name\": \"stamp\", \"format\": \"struct\", \"struct-type\": \"Stamp\"\x7d,
      \x7b\"name\": \"flag\", \"format\": \"guint8\"\x7d,
      \x7b\"name\": \"mark\", \"format\": \"struct\", \"struct-type\": \"Gap\",
        \"prerequisites\": [
          \x7b\"field\": \"flag\", \"operation\": \"==\", \"value\": \"1\"\x7d]\x7d]\x7d]"

/-- The layout of its first field. -/
def stampField : PlacedField where
  name := "stamp"
  format := .struct
  structType? := some "Stamp"
  header := 0
  offset := {}
  size := .fixed 6

/-- Its container. -/
def stampContainer : ContainerLayout where
  kind := .request
  fields := [
    stampField,
    { name := "flag", format := .int .u8, header := 0, offset := { constant := 6 }
      size := .fixed 1 },
    { name := "mark", format := .struct, structType? := some "Gap"
      prerequisites := [⟨"flag", .eq, .int 1⟩], header := 0, offset := { constant := 7 }
      size := .fixed 0 }]
  endOffset := { constant := 7 }

/-- Its structs. -/
def stampStructs : List StructLayout := [
  { name := "Gap", members := [], endOffset := {}, size := .fixed 0, usage := { embedded := true } },
  { name := "Stamp"
    members := [
      { name := "day", format := .int .u16, header := 0, offset := {}, size := .fixed 2 },
      { name := "gap", format := .struct, structType? := some "Gap", header := 0
        offset := { constant := 2 }, size := .fixed 0 },
      { name := "host", format := .ipv4, header := 0, offset := { constant := 2 }
        size := .fixed 4 }]
    endOffset := { constant := 6 }
    size := .fixed 6
    usage := { embedded := true } }]

/-- Its plan. -/
def stampPlan : Plan where
  service := "S"
  variant := .fixed
  messages := [⟨"M", "S", 1, [stampContainer]⟩]
  structs := stampStructs

set_option maxRecDepth 8192 in
theorem stampPlan_eq : Plan.ofSource stampSource {} = .ok stampPlan := by
  refine (Plan.ofSource_ofList _ {}).trans (toOption_eq_some.1 ?_)
  decide +kernel

/-- Values for its fields. -/
def stampValues : Fields := [
  ("flag", .ofNat .u8 1), ("mark", .struct []),
  ("stamp", .struct [("day", .ofNat .u16 5), ("gap", .struct []),
    ("host", .ipv4 ⟨[10, 0, 0, 1], rfl⟩)])]

/-- Six bytes of a struct and a flag are all that is written, as the plan says. -/
theorem size_of_fixed_stamp :
    Codec.encode ⟨stampPlan, .big⟩ stampContainer stampValues = .ok [0, 5, 10, 0, 0, 1, 1] ∧
      [0, 5, 10, 0, 0, 1, 1].length = stampContainer.endOffset.constant ∧
      Codec.Direct stampPlan.struct? [stampField] := by
  have hencoded : Codec.encode ⟨stampPlan, .big⟩ stampContainer stampValues =
      .ok [0, 5, 10, 0, 0, 1, 1] := toOption_eq_some.1 (by decide +kernel)
  obtain ⟨hfields, hcontainers⟩ := Codec.size_of_fixed stampPlan_eq .big
  have hstamp : stampPlan.HasField stampField := .container (.head _) (.head _) (.head _)
  exact ⟨hencoded, hcontainers _ (.head _) _ (.head _) rfl _ _ hencoded,
    (hfields _ 6 hstamp rfl).1⟩

end WirePlan
