import WirePlan.Plan.Generation
import WirePlan.Proofs.Plan.OfSchema
import WirePlan.Proofs.Schema.Checked

/-!
# Plans are well-formed

What encoding and decoding may rely on in a plan that comes from a source: every list is in order,
placed and sized, strings carry their length in a format that may carry it, and no member of a
struct is gated (`Plan.wellFormed_ofSource`).
-/

namespace WirePlan

/-- Layouts in order, one behind the other, each of the size that fits, and every length in a format
that may carry it. -/
structure WellPlaced (structs : StructLayouts) (header : Nat) (fields : List PlacedField)
    (endOffset : Offset) : Prop where
  inOrder : Field.InOrder [] (fields.map (·.toField))
  placed : PlacedFrom header {} fields endOffset
  sized : ∀ f ∈ fields, SizeFits structs f.toField f.size
  lengthFormat : ∀ f ∈ fields, f.format.hasLengthPrefix = true →
    f.lengthFormat.isLengthPrefix = true

/-- A struct whose members are well placed and never absent. -/
structure StructLayout.WellFormed (structs : StructLayouts) (layout : StructLayout) : Prop where
  members : WellPlaced structs 0 layout.members layout.endOffset
  ungated : ∀ f ∈ layout.members, f.prerequisites = []
  size_eq : layout.size = .ofStruct layout.name layout.endOffset

/-- Every struct is well-formed. -/
def StructLayouts.WellFormed (structs : StructLayouts) : Prop :=
  ∀ ⦃name layout⦄, structs name = some layout → layout.WellFormed structs

/-- The containers of every message are well placed, and every struct is well-formed. -/
structure Plan.WellFormed (plan : Plan) : Prop where
  containers : ∀ m ∈ plan.messages, ∀ c ∈ m.containers,
    WellPlaced plan.struct? plan.variant.headerSize c.fields c.endOffset
  structs : StructLayouts.WellFormed plan.struct?

namespace WellPlaced

variable {structs : StructLayouts} {header : Nat} {fields : List PlacedField} {endOffset : Offset}

theorem nodup (h : WellPlaced structs header fields endOffset) : (fields.map (·.name)).Nodup := by
  have hnames := h.inOrder.nodup
  rwa [List.map_map] at hnames

/-- A field counts the elements of every array. -/
theorem counted (h : WellPlaced structs header fields endOffset) {f : PlacedField}
    (hf : f ∈ fields) (harray : f.format.isArray = true) : f.sizeField?.isSome :=
  (h.sized f hf).counted harray

end WellPlaced

/-- A checked list that is laid out is well placed. -/
theorem LaidOut.wellPlaced {structs : StructLayouts} {header : Nat} {declared : List Field}
    {place : Place} {layouts : List PlacedField} {endOffset : Offset}
    (h : LaidOut structs header declared place layouts endOffset)
    (hchecked : CheckedList declared) : WellPlaced structs header layouts endOffset where
  inOrder := WireOrder.inOrder_of_wireOrder h.order hchecked.nodup
  placed := h.placed
  sized := h.sized
  lengthFormat f hf :=
    hchecked.lengthFormat f.toField (WireOrder.mem_of_wireOrder h.order (List.mem_map_of_mem hf))

/-- The plan of a checked schema is well-formed. -/
theorem Plan.wellFormed_ofSchema {schema : Schema} {plan : Plan} (hchecked : schema.Checked)
    (h : ofSchema schema = .ok plan) : plan.WellFormed := by
  obtain ⟨hstructs, -, hmessages⟩ := laidOut_ofSchema h
  have hvariant : plan.variant = schema.variant := by
    rw [ofSchema_eq] at h
    unfold ofSession at h
    split at h
    · cases h
      rfl
    · cases h
  constructor
  · intro m hm c hc
    obtain ⟨m', hm', hmessage⟩ := exists_of_mem_right hmessages hm
    obtain ⟨c', hc', hcontainer⟩ := exists_of_mem_right hmessage.containers hc
    rw [hvariant]
    exact hcontainer.fields.wellPlaced (hchecked.containers m' hm' c' hc')
  · intro name layout hlayout
    obtain ⟨-, ⟨s, hs, -, hlaid⟩, hsize⟩ := hstructs name layout hlayout
    have hmem := List.mem_of_find?_eq_some hs
    refine ⟨hlaid.wellPlaced (hchecked.members s hmem), fun f hf => ?_, hsize⟩
    exact hchecked.ungated s hmem f.toField
      (WireOrder.mem_of_wireOrder hlaid.order (List.mem_map_of_mem hf))

/-- **The plan of a source is well-formed.** -/
theorem Plan.wellFormed_ofSource {source : String} {options : Options} {plan : Plan}
    (h : ofSource source options = .ok plan) : plan.WellFormed := by
  rw [Plan.ofSource_eq] at h
  obtain ⟨schema, hschema, h⟩ := bind_eq_ok.1 h
  obtain ⟨declarations, -, hschema⟩ := bind_eq_ok.1 hschema
  obtain ⟨expanded, -, hschema⟩ := bind_eq_ok.1 hschema
  exact wellFormed_ofSchema (Schema.checked_ofExpanded hschema).1 h

end WirePlan
