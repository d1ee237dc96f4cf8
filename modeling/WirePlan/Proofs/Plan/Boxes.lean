import WirePlan.Proofs.Codec.Restyling
import WirePlan.Proofs.Plan.RecordOrder
import WirePlan.Proofs.Schema.Boxes

/-!
# Boxes are not on the wire

The plan of records without the boxes of formats is the plan of the records without them
(`Plan.ofRecords_unboxed`): reading the records, putting templates in place, checking and laying out
each go without boxes as they go with them. So records that are the same but for boxes have plans
that are the same but for boxes, and as the codec does not see boxes either, their containers have
the same bytes (`Plan.sameWire_of_unboxed`).
-/

namespace WirePlan

/-- The layout without the boxes of formats. -/
def ContainerLayout.unboxed (c : ContainerLayout) : ContainerLayout := c.restyle .unboxed

/-- The layout without the boxes of formats. -/
def MessageLayout.unboxed (m : MessageLayout) : MessageLayout := m.restyle .unboxed

namespace Plan

/-- The plan without the boxes of formats. -/
def unboxed (p : Plan) : Plan := p.restyle .unboxed

/-- **Records without boxes have the plan without boxes**, or they fail with the same error. -/
theorem ofRecords_unboxed (records : List Json) (options : Options) :
    ofRecords (records.map Json.unboxed) options = (ofRecords records options).map unboxed := by
  have hdeclared : Declarations.ofRecords (records.map Json.unboxed) =
      (Declarations.ofRecords records).map Declarations.unboxed :=
    Declarations.addItems_unboxed {} 1 records
  unfold ofRecords
  rw [hdeclared]
  refine map_bind_eq_map fun d => ?_
  rw [d.expand_unboxed]
  exact map_bind_eq_map fun e => ofExpanded_restyle .unboxed e options

/-- The container `c` of the one plan and the container `c'` of the other have the same bytes: in
every byte order, values are encoded to the same bytes and bytes are decoded to the same values, or
both fail with the same error. -/
def SameBytes (plan plan' : Plan) (c c' : ContainerLayout) : Prop :=
  ∀ order : ByteOrder,
    (∀ values, Codec.encode ⟨plan', order⟩ c' values = Codec.encode ⟨plan, order⟩ c values) ∧
      ∀ bytes, Codec.decode ⟨plan', order⟩ c' bytes = Codec.decode ⟨plan, order⟩ c bytes

/-- The messages of the two plans have the same containers, in order, with the same bytes. -/
def SameWire (plan plan' : Plan) : Prop :=
  List.Forall₂ (fun m m' => List.Forall₂ (plan.SameBytes plan') m.containers m'.containers)
    plan.messages plan'.messages

/-- Containers that are the same but for boxes have the same bytes. -/
theorem sameBytes_of_unboxed {plan plan' : Plan} (hplan : plan'.unboxed = plan.unboxed)
    {c c' : ContainerLayout} (hc : c'.unboxed = c.unboxed) : plan.SameBytes plan' c c' := by
  intro order
  have hcodec : Codec.restyle .unboxed ⟨plan', order⟩ = Codec.restyle .unboxed ⟨plan, order⟩ :=
    congrArg (Codec.mk · order) hplan
  have hcontainer : c'.restyle .unboxed = c.restyle .unboxed := hc
  constructor
  · intro values
    rw [← Codec.encode_restyle .unboxed ⟨plan', order⟩, hcodec, hcontainer, Codec.encode_restyle]
  · intro bytes
    rw [← Codec.decode_restyle .unboxed ⟨plan', order⟩, hcodec, hcontainer, Codec.decode_restyle]

/-- Plans that are the same but for boxes agree on the wire. -/
theorem sameWire_of_sameUnboxed {plan plan' : Plan} (hplan : plan'.unboxed = plan.unboxed) :
    plan.SameWire plan' := by
  have hmessages : plan'.messages.map MessageLayout.unboxed =
      plan.messages.map MessageLayout.unboxed := congrArg Plan.messages hplan
  refine (forall₂_of_map_eq hmessages).imp fun m m' hm => ?_
  have hcontainers : m'.containers.map ContainerLayout.unboxed =
      m.containers.map ContainerLayout.unboxed := congrArg MessageLayout.containers hm
  exact (forall₂_of_map_eq hcontainers).imp fun _ _ => sameBytes_of_unboxed hplan

end Plan

/-- **Boxing is invisible on the wire.** Where records are the same but for the boxes of formats,
which may be put on or taken off wherever a format stands, the one list has a plan exactly if the
other has one, under the same options. The two plans are the same but for these boxes, and a
container of the one and its counterpart in the other have the same bytes, be they encoded or
decoded. The plan of a source is that of its records. -/
theorem Plan.sameWire_of_unboxed {records records' : List Json}
    (hsame : records'.map Json.unboxed = records.map Json.unboxed) (options : Options) :
    ((∃ plan, ofRecords records options = .ok plan) ↔
      ∃ plan', ofRecords records' options = .ok plan') ∧
    (∀ plan plan', ofRecords records options = .ok plan → ofRecords records' options = .ok plan' →
      plan'.unboxed = plan.unboxed ∧ plan.SameWire plan') ∧
    (∀ source, Source.records source = .ok records →
      ofSource source options = ofRecords records options) ∧
    ∀ source', Source.records source' = .ok records' →
      ofSource source' options = ofRecords records' options := by
  have hplans : (ofRecords records' options).map unboxed = (ofRecords records options).map unboxed :=
    (ofRecords_unboxed records' options).symm.trans
      ((congrArg (ofRecords · options) hsame).trans (ofRecords_unboxed records options))
  refine ⟨exists_ok_iff_of_map_eq hplans, fun plan plan' h h' => ?_,
    fun source h => ofSource_eq_ofRecords h options,
    fun source' h' => ofSource_eq_ofRecords h' options⟩
  rw [h, h'] at hplans
  have hplan : plan'.unboxed = plan.unboxed := Except.ok.inj hplans
  exact ⟨hplan, sameWire_of_sameUnboxed hplan⟩

/-- A message with an address and with a struct from a template, which has an address itself. -/
def gateRecords (host peer gate : String) : List Json := [
  namedRecord "Service" "S" [],
  namedRecord "Message" "M" [("id", .number (.integer 1)), ("request", .array [
    .object [("name", .string "host"), ("format", .string host)],
    .object [("common-ref", .string "gate")]])],
  .array [.string "Struct", .string "Gate", .array [
    .array [.string "peer", .null, .null, .string peer, .null, .null, .null, .null, .null]]],
  .object [("type", .string "CommonFragment-TLV"), ("common-ref", .string "gate"),
    ("name", .string "gate"), ("format", .string gate), ("struct-type", .string "Gate")]]

/-- Their plan. -/
def gatePlan (host peer gate : Format) : Plan where
  service := "S"
  variant := .fixed
  messages := [⟨"M", "S", 1, [⟨.request, [
    { name := "host", format := host, header := 0, offset := {}, size := .fixed 4 },
    { name := "gate", format := gate, structType? := some "Gate", origin? := some "gate"
      header := 0, offset := { constant := 4 }, size := .fixed 16 }], { constant := 20 }⟩]⟩]
  structs := [
    { name := "Gate"
      members := [
        { name := "peer", format := peer, header := 0, offset := {}, size := .fixed 16 }]
      endOffset := { constant := 16 }
      size := .fixed 16
      usage := { embedded := true } }]

/-- Some boxes are put on, others taken off. -/
theorem Plan.sameWire_gate :
    (gateRecords "ipv4" "ref-ipv6" "struct").map Json.unboxed =
        (gateRecords "ref-ipv4" "ipv6" "ref-struct").map Json.unboxed ∧
      ofRecords (gateRecords "ref-ipv4" "ipv6" "ref-struct") {} =
          .ok (gatePlan .refIpv4 .ipv6 .refStruct) ∧
        ofRecords (gateRecords "ipv4" "ref-ipv6" "struct") {} =
            .ok (gatePlan .ipv4 .refIpv6 .struct) ∧
          (gatePlan .ipv4 .refIpv6 .struct).unboxed = (gatePlan .refIpv4 .ipv6 .refStruct).unboxed ∧
            (gatePlan .refIpv4 .ipv6 .refStruct).SameWire (gatePlan .ipv4 .refIpv6 .struct) := by
  have hsame : (gateRecords "ipv4" "ref-ipv6" "struct").map Json.unboxed =
      (gateRecords "ref-ipv4" "ipv6" "ref-struct").map Json.unboxed := rfl
  have hplan : ofRecords (gateRecords "ref-ipv4" "ipv6" "ref-struct") {} =
      .ok (gatePlan .refIpv4 .ipv6 .refStruct) := toOption_eq_some.1 (by decide +kernel)
  have hplan' : ofRecords (gateRecords "ipv4" "ref-ipv6" "struct") {} =
      .ok (gatePlan .ipv4 .refIpv6 .struct) := toOption_eq_some.1 (by decide +kernel)
  exact ⟨hsame, hplan, hplan', (sameWire_of_unboxed hsame {}).2.1 _ _ hplan hplan'⟩

end WirePlan
