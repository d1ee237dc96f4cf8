import WirePlan.Proofs.Codec.Mismatch
import WirePlan.Proofs.Codec.Pieces
import WirePlan.Proofs.Codec.Tracking

/-!
# Offsets that are exact

What encoding a field gives tells the bytes of the field (`measures_of_encodeValue`), and as long as
no constant wraps, what is known of the fields before an offset makes it amount to exactly the bytes
so far (`Exact`), not only in the low bits that decoding needs. Each field keeps this, absent
(`Exact.without`) or there (`Exact.record`), so the offset is evaluated to those bytes while they
are a 64-bit word (`Exact.evaluate?_eq`).
-/

namespace WirePlan.Codec

variable {c : Codec} {inner : StructEncoder} {depth base : Nat} {values : Fields}
  {endOffset : Offset}

/-! ## What an encoding takes -/

/-- A header takes three bytes, or none. -/
theorem length_of_encodeHeader {f : PlacedField} {bytes : Nat} {header : List UInt8}
    (h : encodeHeader c f bytes = .ok header) :
    header.length = if f.header = 0 then 0 else headerSize := by
  unfold encodeHeader at h
  split at h
  · next hzero =>
    cases h
    rw [if_pos hzero, List.length_nil]
  · next hnonzero =>
    obtain ⟨-, rfl⟩ := ite_eq_ok.1 h
    rw [if_neg hnonzero, List.length_cons, c.order.length_bytes, headerSize]

/-- The end of a list that is encoded is where the plan says. At the end the presence of fields on
the wire and the counts of those off the wire are known as they were. -/
theorem exists_known_of_encodeFields {place : Nat} {known : Known} {fields : List PlacedField}
    {pieces : List Piece}
    (h : encodeFields c inner depth values base endOffset place known fields = .ok pieces) :
    ∃ (atEnd : Known) (size : Nat), endOffset.evaluate? atEnd = some size ∧
      base + size = place + Piece.size pieces ∧
      (∀ name, (∀ f ∈ fields, f.name = name →
        Prerequisite.allHold f.prerequisites values = .ok true) →
        atEnd.isPresent name = known.isPresent name) ∧
      ∀ name, (∀ f ∈ fields, f.name = name →
        Prerequisite.allHold f.prerequisites values = .ok false) →
        atEnd.count? name = known.count? name := by
  induction fields generalizing place known pieces with
  | nil =>
    obtain ⟨⟨size, hsize, hplace⟩, rfl⟩ := encodeFields_nil_eq_ok.1 h
    exact ⟨known, size, hsize, hplace, fun _ _ => rfl, fun _ _ => rfl⟩
  | cons f rest ih =>
    rcases encodeFields_cons_eq_ok.1 h with ⟨habsent, h⟩ | ⟨hholds, value, offset, valuePieces,
      header, others, -, -, hplace, -, hheader, hothers, rfl⟩
    · obtain ⟨atEnd, size, hsize, hend, hpresent, hcount⟩ := ih h
      refine ⟨atEnd, size, hsize, hend, fun name hname => ?_, fun name hname => ?_⟩
      · rw [hpresent name fun g hg => hname g (.tail _ hg)]
        have hne : name ≠ f.name := by
          rintro rfl
          cases (hname f (.head _) rfl).symm.trans habsent
        simp [Known.without, hne]
      · exact hcount name fun g hg => hname g (.tail _ hg)
    · obtain ⟨atEnd, size, hsize, hend, hpresent, hcount⟩ := ih hothers
      refine ⟨atEnd, size, hsize, ?_, fun name hname => ?_, fun name hname => ?_⟩
      · rw [Piece.size_append, Piece.size_append, Piece.size_ofBytes,
          length_of_encodeHeader hheader]
        omega
      · exact hpresent name fun g hg => hname g (.tail _ hg)
      · rw [hcount name fun g hg => hname g (.tail _ hg)]
        have hne : name ≠ f.name := by
          rintro rfl
          cases (hname f (.head _) rfl).symm.trans hholds
        simp [Known.record, hne]

/-- The encoder of structs gives those of fixed size as many bytes. -/
def KeepsSizes (c : Codec) (inner : StructEncoder) : Prop :=
  ∀ ⦃t : String⦄ ⦃layout : StructLayout⦄, c.plan.struct? t = some layout →
    ∀ ⦃members : Fields⦄ ⦃start : Nat⦄ ⦃pieces : List Piece⦄,
      inner layout members start = .ok pieces →
      ∀ n, layout.size = .fixed n → Piece.size pieces = n

theorem keepsSizes_encodeStruct (hplan : c.plan.WellFormed) (depth : Nat) :
    KeepsSizes c (encodeStruct c depth) := by
  intro t layout ht members start pieces h n hfixed
  cases depth with
  | zero => cases h
  | succ depth =>
    obtain ⟨known, size, hsize, hend, -, -⟩ := exists_known_of_encodeFields h
    rw [(hplan.structs ht).size_eq, WireSize.ofStruct] at hfixed
    split at hfixed
    · next hconstant =>
      cases hfixed
      have := Offset.eq_constant_of_evaluate? hsize hconstant
      omega
    · cases hfixed

/-- Structs of fixed size take as many bytes each. -/
theorem size_of_encodeStructs (hsizes : KeepsSizes c inner) {t : String} {layout : StructLayout}
    (ht : c.plan.struct? t = some layout) {field : String} {start n : Nat} {items : List Value}
    {pieces : List Piece} (h : encodeStructs inner field layout start items = .ok pieces)
    (hfixed : layout.size = .fixed n) : Piece.size pieces = n * items.length := by
  induction items generalizing start pieces with
  | nil =>
    cases h
    rfl
  | cons item items ih =>
    unfold encodeStructs at h
    split at h
    · cases h
    · obtain ⟨first, hfirst, h⟩ := bind_eq_ok.1 h
      obtain ⟨others, hothers, h⟩ := bind_eq_ok.1 h
      cases pure_eq_ok.1 h
      rw [Piece.size_append, hsizes ht hfirst n hfixed, ih hothers, List.length_cons, Nat.mul_succ,
        Nat.add_comm]

section Value

variable {f : PlacedField} {seen : Fields} {value : Value} {start : Nat} {pieces : List Piece}

/-- The items of an array tell its bytes, whether they are of fixed size or not. -/
theorem measures_items {counter : String} {element : WireSize} {items bytes : Nat}
    (hsize : f.size = .repeated counter element) (hcounter : f.sizeField? = some counter)
    (hother : counter ≠ f.name) (hitems : countOf f values = .ok items)
    (hcount : ∀ n, element = .fixed n → countOf f seen = countOf f values)
    (hbytes : ∀ n, element = .fixed n → bytes = n * items) : Measures f seen value bytes := by
  cases element with
  | fixed n => exact measures_repeated hsize hcounter hother ((hcount n rfl).trans hitems) hbytes
  | lengthPrefixed _ | repeated _ _ | composite _ => exact measures_variable hsize rfl

/-- **What is encoded of a field tells its bytes.** The cases are those of the sizes that formats
call for. -/
theorem measures_of_encodeValue (hplan : c.plan.WellFormed) (hsizes : KeepsSizes c inner)
    (hsized : SizeFits c.plan.struct? f.toField f.size)
    (hother : ∀ counter, f.sizeField? = some counter → counter ≠ f.name)
    (hcount : ∀ counter n, f.size = .repeated counter (.fixed n) →
      countOf f seen = countOf f values)
    (h : encodeValue c inner depth f values start value = .ok pieces) :
    Measures f seen value (Piece.size pieces) := by
  have hcount' : ∀ counter element, f.size = .repeated counter element →
      ∀ n, element = .fixed n → countOf f seen = countOf f values := by
    rintro counter _ hsize n rfl
    exact hcount counter n hsize
  generalize hsize : f.size = size at hsized
  cases hsized with
  | scalar hformat helement =>
    rw [encodeValue, hformat] at h
    obtain ⟨bytes, hbytes, h⟩ := bind_eq_ok.1 h
    cases pure_eq_ok.1 h
    rw [Piece.size_ofBytes]
    exact measures_fixed hsize (Element.length_of_encode hbytes helement)
  | string hformat =>
    rw [encodeValue, hformat] at h
    obtain ⟨bytes, hbytes, h⟩ := bind_eq_ok.1 h
    cases pure_eq_ok.1 h
    rw [Piece.size_ofBytes]
    exact measures_string hformat hsize (Element.le_length_of_encode hbytes)
  | array hformat helement hcounter =>
    obtain ⟨items, rfl, hitems, h⟩ :=
      (encodeValue_array_eq_ok (by rw [hformat]; rfl)).1 h
    rw [encodeItems, hformat] at h
    obtain ⟨parts, hparts, h⟩ := bind_eq_ok.1 h
    cases pure_eq_ok.1 h
    rw [Piece.size_ofBytes]
    refine measures_items hsize hcounter (hother _ hcounter) hitems (hcount' _ _ hsize) ?_
    rintro n ⟨⟩
    exact Element.length_of_encodeMany hparts helement
  | strings hformat hcounter => exact measures_variable hsize rfl
  | struct hformat htype hstruct =>
    have hscalar : f.format.scalar? = none := by rcases hformat with heq | heq <;> rw [heq] <;> rfl
    have hsingle : f.format.isArray = false := by rcases hformat with heq | heq <;> rw [heq] <;> rfl
    obtain ⟨members, layout, rfl, hlayout, h⟩ := (encodeValue_struct_eq_ok hscalar hsingle).1 h
    cases (structOf_eq_ok.2 ⟨_, htype, hstruct⟩).symm.trans hlayout
    have hbytes := hsizes hstruct h
    rw [(hplan.structs hstruct).size_eq, WireSize.ofStruct] at hsize hbytes
    split at hsize
    · next hconstant => exact measures_fixed hsize (hbytes _ (if_pos hconstant))
    · exact measures_composite hsize
  | structArray hformat hcounter htype hstruct =>
    obtain ⟨items, rfl, hitems, h⟩ :=
      (encodeValue_array_eq_ok (by rw [hformat]; rfl)).1 h
    rw [encodeItems, hformat] at h
    obtain ⟨layout, hlayout, h⟩ := bind_eq_ok.1 h
    cases (structOf_eq_ok.2 ⟨_, htype, hstruct⟩).symm.trans hlayout
    exact measures_items hsize hcounter (hother _ hcounter) hitems (hcount' _ _ hsize)
      fun n hn => size_of_encodeStructs hsizes hstruct h hn
  | slots hformat hcounter htype hstruct =>
    obtain ⟨items, rfl, hitems, h⟩ :=
      (encodeValue_array_eq_ok (by rw [hformat]; rfl)).1 h
    rw [encodeItems, hformat] at h
    obtain ⟨layout, hlayout, h⟩ := bind_eq_ok.1 h
    obtain ⟨structs, rfl, rfl⟩ := mapM_encodeSlot h
    refine measures_items hsize hcounter (hother _ hcounter) hitems (hcount' _ _ hsize) ?_
    rintro n ⟨⟩
    rw [size_slots, List.length_map, List.length_map]

end Value

/-! ## Offsets that are exact -/

section Exact

variable {o : Offset} {known : Known} {before : List String} {seen : Fields} {bytes : Nat}

/-- What is known of the fields before makes an offset amount to exactly so many bytes. -/
structure Exact (o : Offset) (known : Known) (before : List String) (seen : Fields)
    (bytes : Nat) : Prop extends Tracks o known before seen bytes where
  exact : o.amount? known = some (bytes : Int)

/-- Before the first field there are no bytes. -/
theorem exact_start : Exact {} .nothing [] [] 0 := ⟨tracks_start, rfl⟩

/-- An exact offset is evaluated to the bytes, if they are a 64-bit word. -/
theorem Exact.evaluate?_eq (h : Exact o known before seen bytes) (hword : bytes < UInt64.size) :
    o.evaluate? known = some bytes :=
  Offset.evaluate?_of_amount? h.exact hword

/-- An exact offset stays so behind a header, if the constant does not wrap. -/
theorem Exact.advance (h : Exact o known before seen bytes) {header : Nat}
    (hword : o.constant + header < UInt64.size) :
    Exact (o.advance header) known before seen (bytes + header) where
  toTracks := h.toTracks.advance header
  exact := by
    rw [Offset.amount?_advance, h.exact, wrap64_of_lt hword]
    simp

variable {f : PlacedField} {structs : StructLayouts} (hstructs : structs.WellFormed)
  (hsized : SizeFits structs f.toField f.size) (hdeps : ∀ d ∈ f.dependencies, d ∈ before)
  (hfresh : f.name ∉ before)

include hstructs hsized hdeps hfresh

/-- An exact offset stays so past a field that is absent, if the constant does not wrap. -/
theorem Exact.without {header : Nat} (h : Exact f.offset known before seen (bytes + header))
    (hgated : f.isConditional = true) (hword : f.offset.constant + f.size.fixedPart < UInt64.size)
    (hheader : header + f.size.fixedPart < UInt64.size) :
    Exact (f.offset.past header f.toField f.size) (known.without f.name) (f.name :: before) seen
      bytes where
  toTracks := h.toTracks.without hstructs hsized hdeps hfresh hgated
  exact := by
    have hsame := (amount?_without hfresh h.references).trans h.exact
    have habsent : (known.without f.name).isPresent f.name = false := by simp [Known.without]
    rw [Offset.amount?_past_absent hsame habsent hgated, wrap64_of_lt hword, wrap64_of_lt hheader,
      Option.some.injEq]
    push_cast
    ring

/-- An exact offset stays so past a field that is there, if the constant does not wrap. -/
theorem Exact.record {value : Value} {taken : Nat} (h : Exact f.offset known before seen bytes)
    (hmeasures : Measures f seen value taken)
    (hword : f.offset.constant + f.size.fixedPart < UInt64.size) (htaken : taken < UInt64.size)
    (header : Nat) :
    Exact (f.offset.past header f.toField f.size) (known.record f.toField value taken)
      (f.name :: before) (seen.insert f.name value) (bytes + taken) := by
  have hsmall : taken < size128 / 2 := htaken.trans_le (by decide)
  refine ⟨h.toTracks.record hstructs hsized hdeps hfresh hmeasures header, ?_⟩
  have hsame := (amount?_record hfresh h.references value taken).trans h.exact
  have hpresent : (known.record f.toField value taken).isPresent f.name = true :=
    h.present f.name hfresh
  rw [Offset.amount?_past_present hsame hpresent (hmeasures known h.count) hsmall,
    wrap64_of_lt hword, Option.some.injEq]
  push_cast
  ring

end Exact

end WirePlan.Codec
