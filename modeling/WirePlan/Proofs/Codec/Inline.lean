import WirePlan.Proofs.Codec.Exact
import WirePlan.Proofs.Codec.Written

/-!
# The parts of a list

What is encoded of a list of fields is one part for each field that is there, its header and its
value, one behind the other (`EncodedFrom`). When the list has gone by, what is known of its fields
is what was written of them (`Known.Tells`), and of other names what was known before, so by
induction on the list its end offset tells the bytes of all parts (`exists_parts_of_encodeFields`).
-/

namespace WirePlan

/-- What is written of a field that is there. -/
structure FieldPart where
  field : PlacedField
  value : Value
  header : List UInt8
  /-- The encoding of the value. -/
  pieces : List Piece

/-- The header and the value. -/
def FieldPart.whole (p : FieldPart) : List Piece := Piece.ofBytes p.header ++ p.pieces

theorem FieldPart.size_whole (p : FieldPart) :
    Piece.size p.whole = p.header.length + Piece.size p.pieces := by
  rw [whole, Piece.size_append, Piece.size_ofBytes]

namespace Known

/-- What is known of fields is what was written of them: which of them are there, and of a part the
number that its value is, the bytes of its value, and what follows the length of a string. -/
structure Tells (known : Known) (fields : List PlacedField) (values : Fields)
    (parts : List FieldPart) : Prop where
  presence : ∀ f ∈ fields, known.isPresent f.name = f.isOnWire values
  count : ∀ p ∈ parts, known.count? p.field.name = p.value.natural?
  consumed : ∀ p ∈ parts, known.consumed? p.field.name = some (Piece.size p.pieces)
  stringLength : ∀ p ∈ parts, p.field.format = .string →
    known.stringLength? p.field.name = some (Piece.size p.pieces - p.field.lengthFormat.size)

/-- The same is known of a name. -/
structure SameAt (a b : Known) (name : String) : Prop where
  isPresent : a.isPresent name = b.isPresent name
  count : a.count? name = b.count? name
  stringLength : a.stringLength? name = b.stringLength? name
  consumed : a.consumed? name = b.consumed? name

theorem SameAt.trans {a b c : Known} {name : String} (hab : a.SameAt b name)
    (hbc : b.SameAt c name) : a.SameAt c name :=
  ⟨hab.isPresent.trans hbc.isPresent, hab.count.trans hbc.count,
    hab.stringLength.trans hbc.stringLength, hab.consumed.trans hbc.consumed⟩

theorem sameAt_without {known : Known} {field name : String} (h : name ≠ field) :
    (known.without field).SameAt known name :=
  ⟨by simp [without, h], rfl, rfl, rfl⟩

theorem sameAt_record {known : Known} {f : Field} {value : Value} {bytes : Nat} {name : String}
    (h : name ≠ f.name) : (known.record f value bytes).SameAt known name :=
  ⟨rfl, by simp [record, h], by simp [record, h], by simp [record, h]⟩

/-- Nothing was said of a name. -/
structure Fresh (known : Known) (name : String) : Prop where
  isPresent : known.isPresent name = true
  count : known.count? name = none

theorem fresh_nothing (name : String) : nothing.Fresh name := ⟨rfl, rfl⟩

theorem SameAt.fresh {a b : Known} {name : String} (h : a.SameAt b name) (hb : b.Fresh name) :
    a.Fresh name :=
  ⟨h.isPresent.trans hb.isPresent, h.count.trans hb.count⟩

namespace Tells

variable {known atEnd : Known} {fields : List PlacedField} {values : Fields}
  {parts : List FieldPart}

/-- A field that is not there leaves no part. -/
theorem cons_absent (h : atEnd.Tells fields values parts) {f : PlacedField}
    (hoff : f.isOnWire values = false) (hsame : atEnd.SameAt (known.without f.name) f.name) :
    atEnd.Tells (f :: fields) values parts where
  presence := by
    refine List.forall_mem_cons.2 ⟨?_, h.presence⟩
    rw [hsame.isPresent, hoff]
    simp [Known.without]
  count := h.count
  consumed := h.consumed
  stringLength := h.stringLength

/-- A field that is there leaves its part, of which is known what was recorded of the value. -/
theorem cons_present (h : atEnd.Tells fields values parts) {p : FieldPart}
    (hon : p.field.isOnWire values = true) (hfresh : known.Fresh p.field.name)
    (hsame : atEnd.SameAt (known.record p.field.toField p.value (Piece.size p.pieces))
      p.field.name) : atEnd.Tells (p.field :: fields) values (p :: parts) where
  presence := by
    refine List.forall_mem_cons.2 ⟨?_, h.presence⟩
    rw [hsame.isPresent, hon]
    exact hfresh.isPresent
  count := by
    refine List.forall_mem_cons.2 ⟨?_, h.count⟩
    rw [hsame.count]
    simp [Known.record, hfresh.count]
  consumed := by
    refine List.forall_mem_cons.2 ⟨?_, h.consumed⟩
    rw [hsame.consumed]
    simp [Known.record]
  stringLength := by
    refine List.forall_mem_cons.2 ⟨fun hstring => ?_, h.stringLength⟩
    rw [hsame.stringLength]
    simp [Known.record, hstring]

end Tells

end Known

namespace Codec

variable {c : Codec} {inner : StructEncoder} {depth : Nat} {values : Fields}

/-- The parts stand one behind the other from a place on, each the header and the encoding of the
field's value there. -/
def EncodedFrom (c : Codec) (inner : StructEncoder) (depth : Nat) (values : Fields) :
    (place : Nat) → List FieldPart → Prop
  | _, [] => True
  | place, p :: rest =>
    values.find? p.field.name = some p.value ∧
      encodeHeader c p.field (Piece.size p.pieces) = .ok p.header ∧
      encodeValue c inner depth p.field values (place + p.header.length) p.value = .ok p.pieces ∧
      EncodedFrom c inner depth values (place + Piece.size p.whole) rest

/-- **A list is encoded as the parts of the fields that are there**, and with what is then known of
them its end offset is the bytes of all parts. -/
theorem exists_parts_of_encodeFields {fields : List PlacedField}
    (hnames : (fields.map (·.name)).Nodup) {base place : Nat} {endOffset : Offset} {known : Known}
    (hfresh : ∀ f ∈ fields, known.Fresh f.name) {pieces : List Piece}
    (h : encodeFields c inner depth values base endOffset place known fields = .ok pieces) :
    ∃ (parts : List FieldPart) (atEnd : Known) (size : Nat),
      EncodedFrom c inner depth values place parts ∧ pieces = parts.flatMap FieldPart.whole ∧
      parts.map (·.field) = fields.filter (·.isOnWire values) ∧ atEnd.Tells fields values parts ∧
      endOffset.evaluate? atEnd = some size ∧ base + size = place + Piece.size pieces ∧
      ∀ name ∉ fields.map (·.name), atEnd.SameAt known name := by
  induction fields generalizing place known pieces with
  | nil =>
    obtain ⟨⟨size, hsize, hplace⟩, rfl⟩ := encodeFields_nil_eq_ok.1 h
    refine ⟨[], known, size, trivial, rfl, rfl, ?_, hsize, hplace, fun _ _ => ⟨rfl, rfl, rfl, rfl⟩⟩
    constructor <;> simp
  | cons f rest ih =>
    obtain ⟨hfirst, hrest⟩ := List.nodup_cons.1 hnames
    have hother : ∀ g ∈ rest, g.name ≠ f.name := by
      intro g hg heq
      exact hfirst (List.mem_map.2 ⟨g, hg, heq⟩)
    -- The names of the fields are all different, so what is noted of this one is not noted over.
    rcases encodeFields_cons_eq_ok.1 h with ⟨habsent, h⟩ | ⟨hpresent, value, offset, valuePieces,
      header, others, hvalue, -, hplace, hpieces, hheader, hothers, rfl⟩
    · have hfresh' : ∀ g ∈ rest, (known.without f.name).Fresh g.name := fun g hg =>
        (Known.sameAt_without (hother g hg)).fresh (hfresh g (.tail _ hg))
      obtain ⟨parts, atEnd, size, hencoded, hjoined, hfields, htells, hsize, hend, hsame⟩ :=
        ih hrest hfresh' h
      have hoff := PlacedField.isOnWire_of_allHold habsent
      refine ⟨parts, atEnd, size, hencoded, hjoined, ?_, htells.cons_absent hoff (hsame _ hfirst),
        hsize, hend, fun name hname => ?_⟩
      · rw [List.filter_cons_of_neg (by simp [hoff]), hfields]
      · rw [List.map_cons, List.mem_cons, not_or] at hname
        exact (hsame name hname.2).trans (Known.sameAt_without hname.1)
    · have hfresh' : ∀ g ∈ rest,
          (known.record f.toField value (Piece.size valuePieces)).Fresh g.name := fun g hg =>
        (Known.sameAt_record (hother g hg)).fresh (hfresh g (.tail _ hg))
      obtain ⟨parts, atEnd, size, hencoded, hjoined, hfields, htells, hsize, hend, hsame⟩ :=
        ih hrest hfresh' hothers
      have hon := PlacedField.isOnWire_of_allHold hpresent
      have hlength := length_of_encodeHeader hheader
      have htells' := htells.cons_present (p := ⟨f, value, header, valuePieces⟩) hon
        (hfresh f (.head _)) (hsame f.name hfirst)
      have hwhole : Piece.size (FieldPart.whole ⟨f, value, header, valuePieces⟩) =
          header.length + Piece.size valuePieces := FieldPart.size_whole _
      have hbytes : base + offset + Piece.size valuePieces =
          place + Piece.size (FieldPart.whole ⟨f, value, header, valuePieces⟩) := by
        omega
      refine ⟨⟨f, value, header, valuePieces⟩ :: parts, atEnd, size, ⟨hvalue, hheader, ?_, ?_⟩, ?_,
        ?_, htells', hsize, ?_, fun name hname => ?_⟩
      · rwa [hplace, ← hlength] at hpieces
      · rwa [hbytes] at hencoded
      · rw [List.flatMap_cons, ← hjoined, FieldPart.whole, List.append_assoc]
      · rw [List.filter_cons_of_pos hon, List.map_cons, hfields]
      · rw [Piece.size_append, Piece.size_append, Piece.size_ofBytes]
        omega
      · rw [List.map_cons, List.mem_cons, not_or] at hname
        exact (hsame name hname.2).trans (Known.sameAt_record hname.1)

end Codec

end WirePlan
