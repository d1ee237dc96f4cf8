import WirePlan.Proofs.Codec.EncodeDecode

/-!
# How far decoding reaches

A decoder covers more than it reads: the end of every list is where the plan says, and an element
behind the container is wherever its slot says. The first is no matter. What is known of the fields
before never puts an offset beyond the bytes that they take (`Tracks.le_of_evaluate?`), so nothing
inside a list goes past what was read (`within_of_decodeFields`).

The second is one. A slot tells any place below 2^32, and only reads are checked against the end of
the data. A struct past the end can be decoded if there is nothing to read in it, which is when it
has a fixed size of no bytes (`size_of_decodeStruct_past`), and then its place counts as covered. So
what a decode covers is there, unless slots that the container reaches point at structs of no bytes
(`PointsAtEmpty`); in that case it ends below 2^32 (`covered_of_decode`). One such array is enough
(`not_forall_covered_le`).
-/

namespace WirePlan

/-- Reading goes on so many bytes further, which are inside the data, and covers nothing beyond a
limit. -/
structure Cursor.Spans (data : Array UInt8) (limit : Nat) (cur after : Cursor) (bytes : Nat) :
    Prop where
  position : after.position = cur.position + bytes
  within : after.position ≤ data.size
  covered : cur.covered ≤ limit → after.covered ≤ limit

/-- Reading goes on twice. -/
theorem Cursor.Spans.trans {data : Array UInt8} {limit : Nat} {a b c : Cursor} {m n : Nat}
    (hab : Spans data limit a b m) (hbc : Spans data limit b c n) :
    Spans data limit a c (m + n) where
  position := by rw [hbc.position, hab.position, Nat.add_assoc]
  within := hbc.within
  covered h := hbc.covered (hab.covered h)

/-! ## Values without parts -/

/-- A number that is read is inside the data. -/
theorem le_size_of_readNumber {order : ByteOrder} {data : Array UInt8} {place width n : Nat}
    (h : readNumber order data place width = .ok n) : place + width ≤ data.size := by
  have hle := (readNumber_eq_ok.1 h).1.le_size
  rwa [order.length_bytes] at hle

/-- Octets that are read are inside the data. -/
theorem le_size_of_readOctets {data : Array UInt8} {place count : Nat} {octets : Octets count}
    (h : readOctets data place count = .ok octets) : place + count ≤ data.size := by
  have hle := (readOctets_eq_ok.1 h).le_size
  rwa [octets.property] at hle

namespace Element

variable {order : ByteOrder} {data : Array UInt8} (limit : Nat) {lengthFormat : IntFormat}

/-- A value takes the bytes of its format; a string takes at least its length. -/
theorem spans_of_decode {e : Element} {v : Value} {cur cur' : Cursor}
    (h : e.decode order data lengthFormat cur = .ok (v, cur')) :
    ∃ bytes, cur.Spans data limit cur' bytes ∧ (∀ n, e.size? = some n → bytes = n) ∧
      (e = .string → lengthFormat.size ≤ bytes) := by
  cases e with
  | int i =>
    obtain ⟨n, hn, h⟩ := bind_eq_ok.1 h
    cases pure_eq_ok.1 h
    exact ⟨i.size, ⟨rfl, le_size_of_readNumber hn, id⟩, fun _ hn => Option.some.inj hn, nofun⟩
  | uuid | ipv4 | ipv6 =>
    obtain ⟨octets, hoctets, h⟩ := bind_eq_ok.1 h
    cases pure_eq_ok.1 h
    exact ⟨_, ⟨rfl, le_size_of_readOctets hoctets, id⟩, fun _ hn => Option.some.inj hn, nofun⟩
  | string =>
    obtain ⟨length, hlength, h⟩ := bind_eq_ok.1 h
    dsimp only at h
    split at h
    · cases h
    · obtain ⟨bytes, hbytes, h⟩ := bind_eq_ok.1 h
      cases pure_eq_ok.1 h
      obtain ⟨hheld, rfl⟩ := readBytes_eq_ok.1 hbytes
      exact ⟨lengthFormat.size + bytes.length, ⟨by simp [Nat.add_assoc], hheld.le_size, id⟩, nofun,
        fun _ => Nat.le_add_right _ _⟩

/-- Values one after the other take as many bytes each as their format. -/
theorem spans_of_decodeMany {e : Element} {count : Nat} {done items : List Value}
    {cur cur' : Cursor} (hplace : cur.position ≤ data.size)
    (h : e.decodeMany order data lengthFormat count cur done = .ok (items, cur')) :
    ∃ bytes, cur.Spans data limit cur' bytes ∧ ∀ n, e.size? = some n → bytes = n * count := by
  induction count generalizing cur done with
  | zero =>
    cases h
    exact ⟨0, ⟨rfl, hplace, id⟩, fun _ _ => rfl⟩
  | succ count ih =>
    rw [decodeMany] at h
    split at h
    · next hnext =>
      obtain ⟨first, hfirst, hsize, -⟩ := spans_of_decode limit hnext
      obtain ⟨others, hothers, hsizes⟩ := ih hfirst.within h
      refine ⟨first + others, hfirst.trans hothers, fun n hn => ?_⟩
      rw [hsize n hn, hsizes n hn, Nat.mul_succ, Nat.add_comm]
    · cases h

end Element

namespace Codec

variable {c : Codec} {data : Array UInt8}

/-! ## Structs past the end -/

/-- No value seen tells a number of elements. -/
def CountsNothing (seen : Fields) : Prop :=
  ∀ name, (seen.find? name).bind Value.natural? = none

/-- A struct counts nothing. -/
theorem CountsNothing.insert_struct {seen : Fields} (h : CountsNothing seen) (name : String)
    (values : Fields) : CountsNothing (seen.insert name (.struct values)) := by
  intro other
  rw [Keyed.find?_insert]
  split
  · rfl
  · exact h other

/-- The only value that can be decoded past the end of the data, where nothing counts elements, is a
struct. -/
theorem struct_of_decodeValue_past {inner : StructDecoder} {f : PlacedField}
    (hsized : SizeFits c.plan.struct? f.toField f.size) {seen : Fields}
    (hcounts : CountsNothing seen) {value : Value} {cur after : Cursor}
    (hpast : data.size < cur.position)
    (h : decodeValue c data inner f seen cur = .ok (value, after)) :
    ∃ t layout, c.plan.struct? t = some layout ∧ f.size = layout.size ∧
      decodeInline inner layout cur = .ok (value, after) := by
  have hnoArray : f.format.isArray = false := by
    cases harray : f.format.isArray with
    | false => rfl
    | true =>
      obtain ⟨_, _, -, hcount, -⟩ := (decodeValue_array_eq_ok harray).1 h
      cases (hcounts _).symm.trans (countOf_eq_ok.1 hcount)
  have hnoScalar : f.format.scalar? = none := by
    cases hscalar : f.format.scalar? with
    | none => rfl
    | some e =>
      rw [decodeValue, hscalar] at h
      obtain ⟨bytes, hspans, -, -⟩ := Element.spans_of_decode 0 h
      have hposition := hspans.position
      have hwithin := hspans.within
      omega
  generalize hsize : f.size = size at hsized
  cases hsized with
  | scalar hformat _ => cases hnoScalar.symm.trans hformat
  | string hformat =>
    rw [hformat] at hnoScalar
    cases hnoScalar
  | array hformat _ _ | strings hformat _ | structArray hformat _ _ _ | slots hformat _ _ _ =>
    rw [hformat] at hnoArray
    cases hnoArray
  | @struct t layout hformat htype hstruct =>
    obtain ⟨found, hfound, hinline⟩ := (decodeValue_struct_eq_ok hnoScalar hnoArray).1 h
    cases (structOf_eq_ok.2 ⟨t, htype, hstruct⟩).symm.trans hfound
    exact ⟨t, layout, hstruct, rfl, hinline⟩

/-- Past a field of no bytes that is never absent an offset stays at the start. -/
theorem past_start {f : Field} (hungated : f.prerequisites = []) :
    Offset.past {} 0 f (.fixed 0) = {} := by
  have hconditional : f.isConditional = false := by simp [Field.isConditional, hungated]
  simp [Offset.past, Offset.advance, Offset.plus, WireSize.fixedPart, WireSize.term?,
    Field.correction?, hconditional, wrap64]

/-- A list of fields that are never absent can be decoded past the end only if it ends where it
starts. The induction is on the fields that remain; the offset stays at the start. -/
theorem end_of_decodeFields_past {inner : StructDecoder} {base : Nat} (hpast : data.size < base)
    (hinner : ∀ ⦃t layout cur values size cur'⦄, c.plan.struct? t = some layout →
      inner layout base cur = .ok (values, size, cur') →
      layout.size = .fixed 0 ∧ size = 0 ∧ cur'.covered = max cur.covered base)
    {endOffset : Offset} {fields : List PlacedField} (hwalk : PlacedFrom 0 {} fields endOffset)
    (hsized : ∀ f ∈ fields, SizeFits c.plan.struct? f.toField f.size)
    (hungated : ∀ f ∈ fields, f.prerequisites = []) {known : Known} {seen : Fields}
    (hcounts : CountsNothing seen) {values : Fields} {size : Nat} {cur cur' : Cursor}
    (h : decodeFields c data inner base endOffset seen known cur fields =
      .ok (values, size, cur')) :
    endOffset = {} ∧ size = 0 ∧ cur'.covered = max cur.covered base := by
  induction fields generalizing known seen cur with
  | nil =>
    cases hwalk
    obtain ⟨size, hsize, heq⟩ := decodeFields_nil_eq_ok.1 h
    cases heq
    cases Offset.eq_constant_of_evaluate? hsize rfl
    exact ⟨rfl, rfl, rfl⟩
  | cons f rest ih =>
    obtain ⟨hf, hrest⟩ := List.forall_mem_cons.1 hsized
    obtain ⟨hpresent, hungated⟩ := List.forall_mem_cons.1 hungated
    obtain ⟨-, hoffset, hwalk⟩ := hwalk.cons_inv
    have hstart : f.offset = {} := hoffset
    rcases decodeFields_cons_eq_ok.1 h with ⟨habsent, -⟩ | ⟨-, offset, _, value, after, heval, -,
      hvalue, -, h⟩
    · rw [hpresent] at habsent
      cases habsent
    · rw [hstart] at heval hwalk
      cases Offset.eq_constant_of_evaluate? heval rfl
      obtain ⟨t, layout, hstruct, hsize, hinline⟩ :=
        struct_of_decodeValue_past hf hcounts hpast hvalue
      obtain ⟨⟨members, taken, after'⟩, hmembers, hinline⟩ := bind_eq_ok.1 hinline
      cases pure_eq_ok.1 hinline
      obtain ⟨hempty, rfl, hcovered⟩ := hinner hstruct hmembers
      rw [hsize, hempty, past_start hpresent] at hwalk
      obtain ⟨hend, hzero, hcovered'⟩ :=
        ih hwalk hrest hungated (hcounts.insert_struct f.name members) h
      refine ⟨hend, hzero, ?_⟩
      simp only [Cursor.covered_cover, Cursor.covered_seek, Cursor.position_seek, hcovered]
        at hcovered'
      omega

/-- **A struct past the end has no bytes.** The induction is on how deep structs nest. -/
theorem size_of_decodeStruct_past (hplan : c.plan.WellFormed) {start : Nat}
    (hpast : data.size < start) (depth : Nat) {t : String} {layout : StructLayout}
    (ht : c.plan.struct? t = some layout) {cur cur' : Cursor} {values : Fields} {size : Nat}
    (h : decodeStruct c data depth layout start cur = .ok (values, size, cur')) :
    layout.size = .fixed 0 ∧ size = 0 ∧ cur'.covered = max cur.covered start := by
  induction depth generalizing t layout cur values size cur' with
  | zero => cases h
  | succ depth ih =>
    have hlayout := hplan.structs ht
    obtain ⟨hend, hzero, hcovered⟩ := end_of_decodeFields_past hpast
      (fun _ _ _ _ _ _ hstruct hmember => ih hstruct hmember)
      hlayout.members.placed hlayout.members.sized hlayout.ungated (fun _ => rfl) h
    refine ⟨?_, hzero, hcovered⟩
    rw [hlayout.size_eq, hend]
    rfl

/-! ## Limits -/

/-- Slots of an array that the fields reach point at structs of no bytes. -/
def PointsAtEmpty (structs : StructLayouts) (fields : List PlacedField) : Prop :=
  ∃ f t layout, Reaches structs fields f ∧ f.format = .refStructArray ∧
    f.structType? = some t ∧ structs t = some layout ∧ layout.size = .fixed 0

/-- A limit is beyond the data and, if slots point at structs of no bytes, beyond every place that
a slot can tell. -/
structure Limits (structs : StructLayouts) (data : Array UInt8) (limit : Nat)
    (fields : List PlacedField) : Prop where
  size_le : data.size ≤ limit
  place_le : PointsAtEmpty structs fields → ∀ place < UInt32.size, place ≤ limit

/-- A limit for fields is one for the structs that they hold. -/
theorem Limits.members {structs : StructLayouts} {limit : Nat} {fields : List PlacedField}
    (h : Limits structs data limit fields) {f : PlacedField} (hf : f ∈ fields)
    (hshape : f.format.isStructShaped = true) {t : String} (htype : f.structType? = some t)
    {layout : StructLayout} (hstruct : structs t = some layout) :
    Limits structs data limit layout.members where
  size_le := h.size_le
  place_le := by
    rintro ⟨g, u, inner, hg, hrest⟩
    exact h.place_le ⟨g, u, inner, .inside hf hshape htype hstruct hg, hrest⟩

variable {limit : Nat}

/-- Structs of this depth that start inside the data end inside it, and cover nothing beyond a
limit. -/
def StaysWithin (c : Codec) (data : Array UInt8) (limit depth : Nat) : Prop :=
  ∀ ⦃t layout start cur values size cur'⦄, c.plan.struct? t = some layout →
    Limits c.plan.struct? data limit layout.members → start ≤ data.size →
    decodeStruct c data depth layout start cur = .ok (values, size, cur') →
    start + size ≤ data.size ∧ (cur.covered ≤ limit → cur'.covered ≤ limit)

/-! ## Values -/

section Values

variable {depth : Nat} (hplan : c.plan.WellFormed) (hinner : StaysWithin c data limit depth)
  {t : String} {layout : StructLayout} (ht : c.plan.struct? t = some layout)
  (hlimits : Limits c.plan.struct? data limit layout.members)

include hplan hinner ht hlimits

/-- The struct at the cursor takes its size. -/
theorem spans_of_decodeInline {v : Value} {cur cur' : Cursor} (hplace : cur.position ≤ data.size)
    (h : decodeInline (decodeStruct c data depth) layout cur = .ok (v, cur')) :
    ∃ bytes, cur.Spans data limit cur' bytes ∧ ∀ n, layout.size = .fixed n → bytes = n := by
  obtain ⟨⟨values, size, after⟩, hstruct, h⟩ := bind_eq_ok.1 h
  cases pure_eq_ok.1 h
  obtain ⟨hwithin, hcovered⟩ := hinner ht hlimits hplace hstruct
  exact ⟨size, ⟨rfl, hwithin, hcovered⟩, fun n hn =>
    size_of_decodeStruct (hplan.structs ht) hstruct hn⟩

/-- Structs one after the other take their size each. -/
theorem spans_of_decodeStructs {count : Nat} {done items : List Value} {cur cur' : Cursor}
    (hplace : cur.position ≤ data.size)
    (h : decodeStructs (decodeStruct c data depth) layout count cur done = .ok (items, cur')) :
    ∃ bytes, cur.Spans data limit cur' bytes ∧
      ∀ n, layout.size = .fixed n → bytes = n * count := by
  induction count generalizing cur done with
  | zero =>
    cases h
    exact ⟨0, ⟨rfl, hplace, id⟩, fun _ _ => rfl⟩
  | succ count ih =>
    rw [decodeStructs] at h
    split at h
    · next hnext =>
      obtain ⟨first, hfirst, hsize⟩ :=
        spans_of_decodeInline hplan hinner ht hlimits hplace hnext
      obtain ⟨others, hothers, hsizes⟩ := ih hfirst.within h
      refine ⟨first + others, hfirst.trans hothers, fun n hn => ?_⟩
      rw [hsize n hn, hsizes n hn, Nat.mul_succ, Nat.add_comm]
    · cases h

/-- The structs at the places of slots cover nothing beyond the limit. One past the end has no
bytes, and for such a struct the limit is beyond all places. -/
theorem covered_of_decodePointees
    (hempty : layout.size = .fixed 0 → ∀ place < UInt32.size, place ≤ limit) {places : List Nat}
    (hplaces : ∀ place ∈ places, place < UInt32.size) {done items : List Value}
    {cur cur' : Cursor} (hcovered : cur.covered ≤ limit)
    (h : decodePointees (decodeStruct c data depth) layout places cur done = .ok (items, cur')) :
    cur'.covered ≤ limit := by
  induction places generalizing cur done with
  | nil =>
    cases h
    exact hcovered
  | cons place places ih =>
    obtain ⟨hplace, hplaces⟩ := List.forall_mem_cons.1 hplaces
    rw [decodePointees] at h
    split at h
    · next hnext =>
      refine ih hplaces ?_ h
      rcases Nat.lt_or_ge data.size place with hpast | hinside
      · obtain ⟨hsize, -, hcovered'⟩ := size_of_decodeStruct_past hplan hpast depth ht hnext
        rw [hcovered']
        exact Nat.max_le.2 ⟨hcovered, hempty hsize place hplace⟩
      · exact (hinner ht hlimits hinside hnext).2 hcovered
    · cases h

end Values

/-- Slots take as many bytes each, and tell places below 2^32. -/
theorem places_of_readSlots {order : ByteOrder} {count position : Nat} {done places : List Nat}
    {position' : Nat} (h : readSlots order data count position done = .ok (places, position'))
    (hplace : position ≤ data.size) (hdone : ∀ place ∈ done, place < UInt32.size) :
    position' = position + Format.slotSize * count ∧ position' ≤ data.size ∧
      ∀ place ∈ places, place < UInt32.size := by
  induction count generalizing position done with
  | zero =>
    cases h
    exact ⟨rfl, hplace, fun place hmem => hdone place (List.mem_reverse.1 hmem)⟩
  | succ count ih =>
    rw [readSlots] at h
    split at h
    · next n hn =>
      have hword : n < UInt32.size := (readNumber_eq_ok.1 hn).2
      obtain ⟨hposition, hwithin, hplaces⟩ :=
        ih h (le_size_of_readNumber hn) (List.forall_mem_cons.2 ⟨hword, hdone⟩)
      refine ⟨?_, hwithin, hplaces⟩
      rw [hposition, Nat.mul_succ]
      omega
    · cases h

/-- **A value stays within the data**, and what is known of it tells its bytes. The cases are those
of the sizes that formats call for. -/
theorem spans_of_decodeValue {depth : Nat} (hplan : c.plan.WellFormed)
    (hinner : StaysWithin c data limit depth) {fields : List PlacedField}
    (hlimits : Limits c.plan.struct? data limit fields) {f : PlacedField} (hf : f ∈ fields)
    (hsized : SizeFits c.plan.struct? f.toField f.size)
    (hother : ∀ counter, f.sizeField? = some counter → counter ≠ f.name) {seen : Fields}
    {value : Value} {cur after : Cursor} (hplace : cur.position ≤ data.size)
    (h : decodeValue c data (decodeStruct c data depth) f seen cur = .ok (value, after)) :
    ∃ bytes, cur.Spans data limit after bytes ∧ Measures f seen value bytes := by
  generalize hsize : f.size = size at hsized
  cases hsized with
  | scalar hformat helement =>
    rw [decodeValue, hformat] at h
    obtain ⟨bytes, hspans, hbytes, -⟩ := Element.spans_of_decode limit h
    exact ⟨bytes, hspans, measures_fixed hsize (hbytes _ helement)⟩
  | string hformat =>
    rw [decodeValue, hformat] at h
    obtain ⟨bytes, hspans, -, hbytes⟩ := Element.spans_of_decode limit (e := .string) h
    exact ⟨bytes, hspans, measures_string hformat hsize (hbytes rfl)⟩
  | array hformat helement hcounter =>
    obtain ⟨items, count, rfl, hcount, hitems⟩ :=
      (decodeValue_array_eq_ok (by rw [hformat]; rfl)).1 h
    rw [decodeItems, hformat] at hitems
    obtain ⟨bytes, hspans, hbytes⟩ := Element.spans_of_decodeMany limit hplace hitems
    refine ⟨bytes, hspans, measures_repeated hsize hcounter (hother _ hcounter) hcount ?_⟩
    rintro n ⟨⟩
    exact hbytes _ helement
  | strings hformat hcounter =>
    obtain ⟨items, count, rfl, hcount, hitems⟩ :=
      (decodeValue_array_eq_ok (by rw [hformat]; rfl)).1 h
    rw [decodeItems, hformat] at hitems
    obtain ⟨bytes, hspans, -⟩ := Element.spans_of_decodeMany limit hplace hitems
    exact ⟨bytes, hspans, measures_variable hsize rfl⟩
  | @struct t layout hformat htype hstruct =>
    have hscalar : f.format.scalar? = none := by rcases hformat with heq | heq <;> rw [heq] <;> rfl
    have hsingle : f.format.isArray = false := by rcases hformat with heq | heq <;> rw [heq] <;> rfl
    have hshape : f.format.isStructShaped = true := by
      rcases hformat with heq | heq <;> rw [heq] <;> rfl
    obtain ⟨_, hfound, hinline⟩ := (decodeValue_struct_eq_ok hscalar hsingle).1 h
    cases (structOf_eq_ok.2 ⟨t, htype, hstruct⟩).symm.trans hfound
    obtain ⟨bytes, hspans, hbytes⟩ := spans_of_decodeInline hplan hinner hstruct
      (hlimits.members hf hshape htype hstruct) hplace hinline
    refine ⟨bytes, hspans, ?_⟩
    rw [(hplan.structs hstruct).size_eq, WireSize.ofStruct] at hsize hbytes
    split at hsize
    · next hconstant => exact measures_fixed hsize (hbytes _ (if_pos hconstant))
    · exact measures_composite hsize
  | @structArray t counter layout hformat hcounter htype hstruct =>
    obtain ⟨items, count, rfl, hcount, hitems⟩ :=
      (decodeValue_array_eq_ok (by rw [hformat]; rfl)).1 h
    rw [decodeItems, hformat] at hitems
    obtain ⟨_, hfound, hitems⟩ := bind_eq_ok.1 hitems
    cases (structOf_eq_ok.2 ⟨t, htype, hstruct⟩).symm.trans hfound
    obtain ⟨bytes, hspans, hbytes⟩ := spans_of_decodeStructs hplan hinner hstruct
      (hlimits.members hf (by rw [hformat]; rfl) htype hstruct) hplace hitems
    exact ⟨bytes, hspans, measures_repeated hsize hcounter (hother _ hcounter) hcount hbytes⟩
  | @slots t counter layout hformat hcounter htype hstruct =>
    obtain ⟨items, count, rfl, hcount, hitems⟩ :=
      (decodeValue_array_eq_ok (by rw [hformat]; rfl)).1 h
    rw [decodeItems, hformat] at hitems
    obtain ⟨_, hfound, hitems⟩ := bind_eq_ok.1 hitems
    cases (structOf_eq_ok.2 ⟨t, htype, hstruct⟩).symm.trans hfound
    obtain ⟨⟨places, position⟩, hplaces, hitems⟩ := bind_eq_ok.1 hitems
    obtain ⟨⟨items, behind⟩, hpointees, hitems⟩ := bind_eq_ok.1 hitems
    cases pure_eq_ok.1 hitems
    obtain ⟨hposition, hwithin, hwords⟩ := places_of_readSlots hplaces hplace
      fun _ hmem => absurd hmem List.not_mem_nil
    have hempty : layout.size = .fixed 0 → ∀ place < UInt32.size, place ≤ limit := fun hzero =>
      hlimits.place_le ⟨f, t, layout, .here hf, hformat, htype, hstruct, hzero⟩
    refine ⟨Format.slotSize * count, ⟨hposition, hwithin, fun hcovered => ?_⟩, ?_⟩
    · have hbefore : (cur.seek position).covered ≤ limit := hcovered
      have hbehind : behind.covered ≤ limit := covered_of_decodePointees hplan hinner hstruct
        (hlimits.members hf (by rw [hformat]; rfl) htype hstruct) hempty hwords hbefore hpointees
      exact hbehind
    · refine measures_repeated hsize hcounter (hother _ hcounter) hcount ?_
      rintro n ⟨⟩
      rfl

/-! ## Fields -/

/-- A header that is read is inside the data. -/
theorem le_size_of_decodeHeader {f : PlacedField} (hheader : f.header ≤ headerSize)
    {position : Nat} {declared? : Option Nat}
    (h : decodeHeader c data f position = .ok declared?) : f.header = 0 ∨ position ≤ data.size := by
  unfold decodeHeader at h
  split at h
  · next hnone => exact .inl hnone
  · obtain ⟨tag, -, h⟩ := bind_eq_ok.1 h
    dsimp only at h
    split at h
    · obtain ⟨declared, hdeclared, -⟩ := bind_eq_ok.1 h
      have hle := le_size_of_readNumber hdeclared
      have hthree : headerSize = 3 := rfl
      exact .inr (by omega)
    · cases h

/-- **Fields stay within the data.** The induction is on the fields that remain of the list; what it
carries is that offsets track bytes that are there. -/
theorem within_of_decodeFields {depth : Nat} (hplan : c.plan.WellFormed)
    (hinner : StaysWithin c data limit depth) {header : Nat} (hheader : header ≤ headerSize)
    {all : List PlacedField} {endOffset : Offset}
    (hplaced : WellPlaced c.plan.struct? header all endOffset)
    (hlimits : Limits c.plan.struct? data limit all) {fields : List PlacedField}
    (hsub : ∀ f ∈ fields, f ∈ all) {before : List String}
    (horder : Field.InOrder before (fields.map (·.toField))) {o : Offset}
    (hwalk : PlacedFrom header o fields endOffset) {known : Known} {seen : Fields} {n : Nat}
    (htracks : Tracks o known before seen n) {base : Nat} (hplace : base + n ≤ data.size)
    {values : Fields} {size : Nat} {cur cur' : Cursor}
    (h : decodeFields c data (decodeStruct c data depth) base endOffset seen known cur fields =
      .ok (values, size, cur')) :
    base + size ≤ data.size ∧ (cur.covered ≤ limit → cur'.covered ≤ limit) := by
  have hlimit := hlimits.size_le
  induction fields generalizing before o known seen n cur with
  | nil =>
    cases hwalk
    obtain ⟨size, hsize, heq⟩ := decodeFields_nil_eq_ok.1 h
    cases heq
    have hle := htracks.le_of_evaluate? hsize
    refine ⟨by omega, fun hcovered => ?_⟩
    rw [Cursor.covered_cover]
    omega
  | cons f rest ih =>
    obtain ⟨hfresh, hdeps, horder⟩ := horder
    obtain ⟨rfl, hoffset, hrest⟩ := hwalk.cons_inv
    obtain ⟨hf, hsub⟩ := List.forall_mem_cons.1 hsub
    have hsized := hplaced.sized f hf
    have htracksField : Tracks f.offset known before seen (n + f.header) :=
      hoffset ▸ htracks.advance f.header
    rcases decodeFields_cons_eq_ok.1 h with ⟨habsent, h⟩ | ⟨-, offset, declared?, value, after,
      heval, hdeclared, hvalue, -, h⟩
    · have htracks' := htracksField.without hplan.structs hsized hdeps hfresh
        (Field.isConditional_of_allHold habsent)
      exact ih hsub horder hrest htracks' hplace h
    · -- The field starts no further than the one before has ended, or behind a header that is read.
      have hstart : base + offset ≤ data.size := by
        have hle := htracksField.le_of_evaluate? heval
        rcases le_size_of_decodeHeader hheader hdeclared with hnone | hinside
        · omega
        · exact hinside
      have hother := Field.counter_ne hfresh hdeps
      obtain ⟨bytes, hspans, hmeasures⟩ :=
        spans_of_decodeValue hplan hinner hlimits hf hsized hother hstart hvalue
      have hposition : after.position = base + offset + bytes := hspans.position
      have htaken : after.position - (base + offset) = bytes := by omega
      rw [htaken] at h
      have htracks' := (htracksField.of_evaluate? heval).record hplan.structs hsized hdeps hfresh
        hmeasures f.header
      have hwithin := hspans.within
      obtain ⟨hend, hcovered⟩ := ih hsub horder hrest htracks' (by omega) h
      refine ⟨hend, fun hbefore => hcovered ?_⟩
      rw [Cursor.covered_cover]
      have hafter := hspans.covered hbefore
      omega

/-- **Structs stay within the data.** The induction is on how deep structs nest. -/
theorem staysWithin (hplan : c.plan.WellFormed) (depth : Nat) : StaysWithin c data limit depth := by
  induction depth with
  | zero =>
    intro t layout start cur values size cur' _ _ _ h
    cases h
  | succ depth ih =>
    intro t layout start cur values size cur' ht hlimits hplace h
    have hmembers := (hplan.structs ht).members
    exact within_of_decodeFields hplan ih (Nat.zero_le _) hmembers hlimits (fun _ hf => hf)
      hmembers.inOrder hmembers.placed tracks_start hplace h

/-! ## Containers -/

/-- What a decode covers is within every limit. -/
theorem covered_le_limit (hplan : c.plan.WellFormed) {m : MessageLayout}
    (hm : m ∈ c.plan.messages) {container : ContainerLayout} (hcontainer : container ∈ m.containers)
    {bytes : List UInt8} {values : Fields} {covered : Nat}
    (h : c.decode container bytes = .ok (values, covered))
    (hlimits : Limits c.plan.struct? bytes.toArray limit container.fields) : covered ≤ limit := by
  obtain ⟨⟨values, size, cur⟩, hread, hresult⟩ := bind_eq_ok.1 h
  cases pure_eq_ok.1 hresult
  have hplaced := hplan.containers m hm container hcontainer
  have hheader : c.plan.variant.headerSize ≤ headerSize := by
    rcases headerSize_eq c.plan.variant with heq | heq <;> rw [heq]
    exact Nat.zero_le _
  obtain ⟨hend, hcovered⟩ := within_of_decodeFields hplan (staysWithin hplan c.nesting) hheader
    hplaced hlimits (fun _ hf => hf) hplaced.inOrder hplaced.placed tracks_start (Nat.zero_le _)
    hread
  have hsize := hlimits.size_le
  have hcur := hcovered (Nat.zero_le limit)
  omega

end Codec

/-- **What a decode covers is there**, or the slots of some array point at structs of no bytes and
the decode covers less than 2^32 bytes. In every plan of a source, under either byte order, this
holds for every container and all bytes that it is decoded from. -/
theorem covered_of_decode {source : String} {options : Options} {plan : Plan}
    (hplan : Plan.ofSource source options = .ok plan) {m : MessageLayout} (hm : m ∈ plan.messages)
    {container : ContainerLayout} (hcontainer : container ∈ m.containers) (order : ByteOrder)
    {bytes : List UInt8} {values : Fields} {covered : Nat}
    (h : Codec.decode ⟨plan, order⟩ container bytes = .ok (values, covered)) :
    covered ≤ bytes.length ∨
      covered < UInt32.size ∧ Codec.PointsAtEmpty plan.struct? container.fields := by
  have hlimit : ∀ limit, Codec.Limits plan.struct? bytes.toArray limit container.fields →
      covered ≤ limit := fun _ =>
    Codec.covered_le_limit (c := ⟨plan, order⟩) (Plan.wellFormed_ofSource hplan) hm hcontainer h
  by_cases hempty : Codec.PointsAtEmpty plan.struct? container.fields
  · have hword : 0 < UInt32.size := by decide
    have hle := hlimit (max bytes.length (UInt32.size - 1))
      ⟨Nat.le_max_left _ _, fun _ place hplace => by omega⟩
    rcases Nat.lt_or_ge bytes.length covered with hpast | hinside
    · exact .inr ⟨by omega, hempty⟩
    · exact .inl hinside
  · exact .inl (hlimit bytes.length ⟨Nat.le_refl _, fun hpoints => absurd hpoints hempty⟩)

/-- A service with one container: a count, and slots that point at structs without members. -/
def hollowSource : String :=
  "[\x7b\"type\": \"Service\", \"name\": \"S\"\x7d,
    \x7b\"type\": \"Struct\", \"name\": \"E\", \"contents\": []\x7d,
    \x7b\"type\": \"Message\", \"name\": \"M\", \"id\": 1, \"request\": [
      \x7b\"name\": \"n\", \"format\": \"guint8\"\x7d,
      \x7b\"name\": \"items\", \"format\": \"ref-struct-array\", \"struct-type\": \"E\",
        \"array-size-field\": \"n\"\x7d]\x7d]"

/-- Its container. -/
def hollowContainer : ContainerLayout where
  kind := .request
  fields := [
    { name := "n", format := .int .u8, header := 0, offset := {}, size := .fixed 1 },
    { name := "items", format := .refStructArray, sizeField? := some "n", structType? := some "E"
      header := 0, offset := { constant := 1 }, size := .repeated "n" (.fixed 4) }]
  endOffset := ⟨1, [.elements "items" 4 "n"]⟩

/-- Its plan. -/
def hollowPlan : Plan where
  service := "S"
  variant := .fixed
  messages := [⟨"M", "S", 1, [hollowContainer]⟩]
  structs := [⟨"E", [], {}, .fixed 0, { arrayMember := true }⟩]

set_option maxRecDepth 4096 in
theorem hollowPlan_eq : Plan.ofSource hollowSource {} = .ok hollowPlan := by
  refine (Plan.ofSource_ofList _ {}).trans (toOption_eq_some.1 ?_)
  decide +kernel

/-- One slot, which tells the place 1000. -/
def hollowBytes : List UInt8 := [1, 0, 0, 3, 232]

theorem decode_hollow : Codec.decode ⟨hollowPlan, .big⟩ hollowContainer hollowBytes =
    .ok ([("items", .array [.struct []]), ("n", .ofNat .u8 1)], 1000) :=
  toOption_eq_some.1 (by decide +kernel)

/-- A decode of five bytes that covers a thousand has come from slots that point at structs of no
bytes. -/
theorem pointsAtEmpty_hollow :
    Codec.decode ⟨hollowPlan, .big⟩ hollowContainer hollowBytes =
        .ok ([("items", .array [.struct []]), ("n", .ofNat .u8 1)], 1000) ∧
      Codec.PointsAtEmpty hollowPlan.struct? hollowContainer.fields := by
  have h := covered_of_decode hollowPlan_eq (.head _) (.head _) .big decode_hollow
  exact ⟨decode_hollow, (h.resolve_left (by decide)).2⟩

/-- It is not so that the bytes that a decode covers are always there. -/
theorem not_forall_covered_le :
    ¬ ∀ (source : String) (options : Options) (plan : Plan) (m : MessageLayout)
      (container : ContainerLayout) (order : ByteOrder) (bytes : List UInt8) (values : Fields)
      (covered : Nat), Plan.ofSource source options = .ok plan → m ∈ plan.messages →
      container ∈ m.containers →
      Codec.decode ⟨plan, order⟩ container bytes = .ok (values, covered) →
      covered ≤ bytes.length := by
  intro h
  have hle := h hollowSource {} hollowPlan _ hollowContainer .big hollowBytes _ 1000 hollowPlan_eq
    (.head _) (.head _) decode_hollow
  exact absurd hle (by decide)

end WirePlan
