import WirePlan.Proofs.Codec.Pieces
import WirePlan.Proofs.Codec.Tracking
import WirePlan.Proofs.Plan.Source

/-!
# Encoding what was decoded

Where no array has its elements behind the container (`Direct`), the bytes covered by a decode that
succeeds are the encoding of its values. The bytes are arbitrary, so everything that the encoder
does or checks has to be found in what the decoder has accepted: that fields stand one behind the
other without a gap (`Tracks`), that tags and lengths in headers are the ones that the encoder
writes, that siblings decided presence and counts as the whole result does (`SeenAs`), and that the
bytes of every value are the ones that encode it (`Element.encode_of_decode`). Only text can be read
without being kept: bytes that are not well-formed are replaced. So the strings read must be
well-formed, and as a decoder never forgets one that it has read (`Keeps`), those read on the way
are.

Structs are restored by induction on the nesting (`Restores`), the fields of a list by induction on
the list (`encode_of_decodeFields`).
-/

namespace WirePlan.Codec

/-! ## The strings read so far -/

/-- All of the texts are well-formed. -/
def ValidTexts (texts : List (List UInt8)) : Prop :=
  ∀ t ∈ texts, (Text.utf8Text? t).isSome

theorem ValidTexts.of_suffix {xs ys : List (List UInt8)} (h : ValidTexts ys) (hle : xs <:+ ys) :
    ValidTexts xs :=
  fun t ht => h t (hle.subset ht)

/-- Decoding a struct keeps the strings read before. -/
def Keeps (inner : StructDecoder) : Prop :=
  ∀ ⦃layout start cur values size cur'⦄, inner layout start cur = .ok (values, size, cur') →
    cur.texts <:+ cur'.texts

section Texts

variable {c : Codec} {data : Array UInt8} {inner : StructDecoder} (hinner : Keeps inner)

include hinner

theorem texts_decodeInline {layout : StructLayout} {cur cur' : Cursor} {v : Value}
    (h : decodeInline inner layout cur = .ok (v, cur')) : cur.texts <:+ cur'.texts := by
  obtain ⟨⟨values, size, after⟩, hstruct, h⟩ := bind_eq_ok.1 h
  cases pure_eq_ok.1 h
  rw [Cursor.texts_seek]
  exact hinner hstruct

theorem texts_decodeStructs {layout : StructLayout} {count : Nat} {cur cur' : Cursor}
    {done items : List Value}
    (h : decodeStructs inner layout count cur done = .ok (items, cur')) :
    cur.texts <:+ cur'.texts := by
  induction count generalizing cur done with
  | zero =>
    cases h
    exact List.suffix_refl _
  | succ count ih =>
    rw [decodeStructs] at h
    split at h
    · next hnext => exact (texts_decodeInline hinner hnext).trans (ih h)
    · cases h

theorem texts_decodePointees {layout : StructLayout} {places : List Nat} {cur cur' : Cursor}
    {done items : List Value}
    (h : decodePointees inner layout places cur done = .ok (items, cur')) :
    cur.texts <:+ cur'.texts := by
  induction places generalizing cur done with
  | nil =>
    cases h
    exact List.suffix_refl _
  | cons place places ih =>
    rw [decodePointees] at h
    split at h
    · next hnext => exact (hinner hnext).trans (ih h)
    · cases h

theorem texts_decodeItems {f : PlacedField} {count : Nat} {cur cur' : Cursor} {items : List Value}
    (h : decodeItems c data inner f count cur = .ok (items, cur')) : cur.texts <:+ cur'.texts := by
  unfold decodeItems at h
  split at h
  · exact Element.texts_decodeMany h
  · obtain ⟨layout, -, h⟩ := bind_eq_ok.1 h
    exact texts_decodeStructs hinner h
  · obtain ⟨layout, -, h⟩ := bind_eq_ok.1 h
    obtain ⟨⟨places, position⟩, -, h⟩ := bind_eq_ok.1 h
    obtain ⟨⟨items, after⟩, hitems, h⟩ := bind_eq_ok.1 h
    cases pure_eq_ok.1 h
    have hkept := texts_decodePointees hinner hitems
    rwa [Cursor.texts_seek] at hkept ⊢

theorem texts_decodeValue {f : PlacedField} {seen : Fields} {cur cur' : Cursor} {v : Value}
    (h : decodeValue c data inner f seen cur = .ok (v, cur')) : cur.texts <:+ cur'.texts := by
  unfold decodeValue at h
  split at h
  · exact Element.texts_decode h
  · split at h
    · obtain ⟨count, -, h⟩ := bind_eq_ok.1 h
      obtain ⟨⟨items, after⟩, hitems, h⟩ := bind_eq_ok.1 h
      cases pure_eq_ok.1 h
      exact texts_decodeItems hinner hitems
    · obtain ⟨layout, -, h⟩ := bind_eq_ok.1 h
      exact texts_decodeInline hinner h

theorem texts_decodeFields {base : Nat} {endOffset : Offset} {fields : List PlacedField}
    {seen values : Fields} {known : Known} {size : Nat} {cur cur' : Cursor}
    (h : decodeFields c data inner base endOffset seen known cur fields =
      .ok (values, size, cur')) : cur.texts <:+ cur'.texts := by
  induction fields generalizing seen known cur with
  | nil =>
    obtain ⟨size, -, heq⟩ := decodeFields_nil_eq_ok.1 h
    cases heq
    exact List.suffix_refl _
  | cons f rest ih =>
    rcases decodeFields_cons_eq_ok.1 h with ⟨-, h⟩ | ⟨-, _, _, _, after, -, -, hvalue, -, h⟩
    · exact ih h
    · have hkept := ih h
      rw [Cursor.texts_cover] at hkept
      have hseek := texts_decodeValue hinner hvalue
      rw [Cursor.texts_seek] at hseek
      exact hseek.trans hkept

end Texts

/-- At every depth, decoding a struct keeps the strings read before. -/
theorem keeps_decodeStruct (c : Codec) (data : Array UInt8) (depth : Nat) :
    Keeps (decodeStruct c data depth) := by
  induction depth with
  | zero =>
    intro layout start cur values size cur' h
    cases h
  | succ depth ih =>
    intro layout start cur values size cur' h
    exact texts_decodeFields ih h

/-! ## Lists without elements behind them -/

/-- A field stands in a list or, however deep, in a struct that a field of the list holds. -/
inductive Reaches (structs : StructLayouts) : List PlacedField → PlacedField → Prop where
  | here {fields : List PlacedField} {f : PlacedField} (hf : f ∈ fields) : Reaches structs fields f
  | inside {fields : List PlacedField} {f g : PlacedField} {t : String} {layout : StructLayout}
      (hg : g ∈ fields) (hshape : g.format.isStructShaped = true)
      (htype : g.structType? = some t) (hstruct : structs t = some layout)
      (hf : Reaches structs layout.members f) : Reaches structs fields f

/-- No array that the fields reach has its elements behind the container. -/
def Direct (structs : StructLayouts) (fields : List PlacedField) : Prop :=
  ∀ ⦃f⦄, Reaches structs fields f → f.format ≠ .refStructArray

/-- A struct inside a direct list is direct. -/
theorem Direct.members {structs : StructLayouts} {fields : List PlacedField}
    (h : Direct structs fields) {f : PlacedField} (hf : f ∈ fields)
    (hshape : f.format.isStructShaped = true) {t : String} (htype : f.structType? = some t)
    {layout : StructLayout} (hstruct : structs t = some layout) : Direct structs layout.members :=
  fun _ hg => h (.inside hf hshape htype hstruct hg)

/-- Structs of this depth are encoded as the bytes that they were decoded from, and as many bytes as
their size tells are covered. -/
def Restores (c : Codec) (data : Array UInt8) (depth : Nat) : Prop :=
  ∀ ⦃t layout start cur values size cur'⦄, c.plan.struct? t = some layout →
    Direct c.plan.struct? layout.members → start ≤ data.size →
    decodeStruct c data depth layout start cur = .ok (values, size, cur') →
    ValidTexts cur'.texts →
    ∃ bytes, encodeStruct c depth layout values start = .ok (Piece.ofBytes bytes) ∧
      Held data start bytes ∧ bytes.length = size ∧ cur'.covered = max cur.covered (start + size)

/-- A list that ends at a constant is of that size. -/
theorem size_of_decodeFields {c : Codec} {data : Array UInt8} {inner : StructDecoder} {base : Nat}
    {endOffset : Offset} {fields : List PlacedField} {seen values : Fields} {known : Known}
    {size : Nat} {cur cur' : Cursor}
    (h : decodeFields c data inner base endOffset seen known cur fields =
      .ok (values, size, cur')) (hconstant : endOffset.isConstant = true) :
    size = endOffset.constant := by
  induction fields generalizing seen known cur with
  | nil =>
    obtain ⟨size, hsize, heq⟩ := decodeFields_nil_eq_ok.1 h
    cases heq
    exact Offset.eq_constant_of_evaluate? hsize hconstant
  | cons f rest ih =>
    rcases decodeFields_cons_eq_ok.1 h with ⟨-, h⟩ | ⟨-, _, _, _, _, -, -, -, -, h⟩
    · exact ih h
    · exact ih h

/-- A struct of fixed size has that size. -/
theorem size_of_decodeStruct {c : Codec} {data : Array UInt8} {depth : Nat}
    {layout : StructLayout} (hlayout : layout.WellFormed c.plan.struct?) {start size n : Nat}
    {values : Fields} {cur cur' : Cursor}
    (h : decodeStruct c data depth layout start cur = .ok (values, size, cur'))
    (hfixed : layout.size = .fixed n) : size = n := by
  cases depth with
  | zero => cases h
  | succ depth =>
    rw [hlayout.size_eq, WireSize.ofStruct] at hfixed
    split at hfixed
    · next hconstant =>
      cases hfixed
      exact size_of_decodeFields h hconstant
    · cases hfixed

/-! ## Values -/

section Values

variable {c : Codec} {data : Array UInt8} {depth : Nat} (hplan : c.plan.WellFormed)
  (hinner : Restores c data depth) {t : String} {layout : StructLayout}
  (ht : c.plan.struct? t = some layout) (hdirect : Direct c.plan.struct? layout.members)

include hplan hinner ht hdirect

/-- The struct at the cursor. -/
theorem encode_of_decodeInline {v : Value} {cur cur' : Cursor} (hplace : cur.position ≤ data.size)
    (h : decodeInline (decodeStruct c data depth) layout cur = .ok (v, cur'))
    (htexts : ValidTexts cur'.texts) :
    ∃ values bytes, v = .struct values ∧
      encodeStruct c depth layout values cur.position = .ok (Piece.ofBytes bytes) ∧
      Held data cur.position bytes ∧ cur'.position = cur.position + bytes.length ∧
      cur'.covered = max cur.covered cur'.position ∧
      ∀ n, layout.size = .fixed n → bytes.length = n := by
  obtain ⟨⟨values, size, after⟩, hstruct, h⟩ := bind_eq_ok.1 h
  cases pure_eq_ok.1 h
  rw [Cursor.texts_seek] at htexts
  obtain ⟨bytes, hbytes, hheld, rfl, hcovered⟩ := hinner ht hdirect hplace hstruct htexts
  exact ⟨values, bytes, rfl, hbytes, hheld, rfl, hcovered, fun n hn =>
    size_of_decodeStruct (hplan.structs ht) hstruct hn⟩

/-- Structs one after the other at the cursor. -/
theorem encode_of_decodeStructs {count : Nat} {done all : List Value} {cur cur' : Cursor}
    (hplace : cur.position ≤ data.size)
    (h : decodeStructs (decodeStruct c data depth) layout count cur done = .ok (all, cur'))
    (htexts : ValidTexts cur'.texts) (field : String) :
    ∃ items bytes, all = done.reverse ++ items ∧ items.length = count ∧
      encodeStructs (encodeStruct c depth) field layout cur.position items =
        .ok (Piece.ofBytes bytes) ∧
      Held data cur.position bytes ∧ cur'.position = cur.position + bytes.length ∧
      max cur'.covered cur'.position = max cur.covered cur'.position ∧
      ∀ n, layout.size = .fixed n → bytes.length = n * count := by
  induction count generalizing cur done with
  | zero =>
    cases h
    exact ⟨[], [], by simp, rfl, rfl, ⟨hplace, List.nil_prefix⟩, rfl, rfl, fun _ _ => rfl⟩
  | succ count ih =>
    rw [decodeStructs] at h
    split at h
    · next v next hnext =>
      have hkept := texts_decodeStructs (keeps_decodeStruct c data depth) h
      obtain ⟨values, bytes, rfl, hbytes, hheld, hposition, hcovered, hfixed⟩ :=
        encode_of_decodeInline hplan hinner ht hdirect hplace hnext (htexts.of_suffix hkept)
      obtain ⟨items, others, rfl, rfl, hothers, hheld', hposition', hcovered', hfixed'⟩ :=
        ih (hposition ▸ hheld.le_size) h
      rw [hposition] at hothers hheld' hposition'
      refine ⟨.struct values :: items, bytes ++ others, by simp, rfl, ?_,
        held_append.2 ⟨hheld, hheld'⟩, ?_, ?_, fun n hn => ?_⟩
      · rw [encodeStructs]
        refine bind_eq_ok.2 ⟨_, hbytes, ?_⟩
        rw [Piece.size_ofBytes]
        exact bind_eq_ok.2 ⟨_, hothers, pure_eq_ok.2 (Piece.ofBytes_append _ _).symm⟩
      · rw [hposition', List.length_append, Nat.add_assoc]
      · omega
      · rw [List.length_append, hfixed n hn, hfixed' n hn, Nat.mul_succ, Nat.add_comm]
    · cases h

end Values

/-- The value of a field is encoded as bytes that the data holds, with its reading behind them and
nothing further covered. -/
structure Restored (c : Codec) (data : Array UInt8) (depth : Nat) (f : PlacedField)
    (siblings seen : Fields) (value : Value) (cur after : Cursor) (bytes : List UInt8) : Prop where
  encoded : encodeValue c (encodeStruct c depth) depth f siblings cur.position value =
    .ok (Piece.ofBytes bytes)
  held : Held data cur.position bytes
  position : after.position = cur.position + bytes.length
  covered : max after.covered after.position = max cur.covered after.position
  measures : Measures f seen value bytes.length

section Value

variable {c : Codec} {data : Array UInt8} {depth : Nat} {f : PlacedField} {siblings seen : Fields}
  {value : Value} {cur after : Cursor}
  (h : decodeValue c data (decodeStruct c data depth) f seen cur = .ok (value, after))
  (htexts : ValidTexts after.texts)

include h htexts

/-- A value without parts. -/
theorem restored_scalar {e : Element} (hformat : f.format.scalar? = some e)
    (hcarries : e = .string → f.lengthFormat.isLengthPrefix = true)
    (hmeasures : ∀ bytes, e.encode c.order f.name f.lengthFormat value = .ok bytes →
      Measures f seen value bytes.length) :
    ∃ bytes, Restored c data depth f siblings seen value cur after bytes := by
  rw [decodeValue, hformat] at h
  obtain ⟨bytes, hbytes, hheld, hposition, hcovered⟩ :=
    Element.encode_of_decode h hcarries htexts f.name
  refine ⟨bytes, ?_, hheld, hposition, by rw [hcovered], hmeasures bytes hbytes⟩
  rw [encodeValue, hformat]
  exact bind_eq_ok.2 ⟨bytes, hbytes, rfl⟩

variable (hplace : cur.position ≤ data.size)

include hplace

/-- An array of values without parts. -/
theorem restored_array {e : Element} {element : WireSize} {counter : String}
    (hformat : f.format = .array e) (hsize : f.size = .repeated counter element)
    (hcounter : f.sizeField? = some counter) (hother : counter ≠ f.name)
    (hcarries : e = .string → f.lengthFormat.isLengthPrefix = true)
    (helement : ∀ n, element = .fixed n → e.size? = some n)
    (hcount : countOf f siblings = countOf f seen) :
    ∃ bytes, Restored c data depth f siblings seen value cur after bytes := by
  have harray : f.format.isArray = true := by rw [hformat]; rfl
  obtain ⟨items, count, rfl, hseen, hitems⟩ := (decodeValue_array_eq_ok harray).1 h
  rw [decodeItems, hformat] at hitems
  obtain ⟨_, parts, rfl, rfl, hparts, hheld, hposition, hcovered⟩ :=
    Element.encode_of_decodeMany hitems hplace hcarries htexts f.name
  refine ⟨parts.flatten, ?_, hheld, hposition, by rw [hcovered],
    measures_repeated hsize hcounter hother hseen fun n hn =>
      Element.length_of_encodeMany hparts (helement n hn)⟩
  refine (encodeValue_array_eq_ok harray).2 ⟨items, rfl, hcount.trans hseen, ?_⟩
  rw [encodeItems, hformat]
  exact bind_eq_ok.2 ⟨parts, hparts, rfl⟩

variable (hplan : c.plan.WellFormed) (hinner : Restores c data depth) {t : String}
  {layout : StructLayout} (htype : f.structType? = some t)
  (hstruct : c.plan.struct? t = some layout) (hdirect : Direct c.plan.struct? layout.members)

include hplan hinner htype hstruct hdirect

/-- A struct. -/
theorem restored_struct (hformat : f.format = .struct ∨ f.format = .refStruct)
    (hsize : f.size = layout.size) :
    ∃ bytes, Restored c data depth f siblings seen value cur after bytes := by
  have hlayout : c.structOf f = .ok layout := structOf_eq_ok.2 ⟨t, htype, hstruct⟩
  have hscalar : f.format.scalar? = none := by rcases hformat with heq | heq <;> rw [heq] <;> rfl
  have hsingle : f.format.isArray = false := by rcases hformat with heq | heq <;> rw [heq] <;> rfl
  obtain ⟨_, hlayout', hinline⟩ := (decodeValue_struct_eq_ok hscalar hsingle).1 h
  cases hlayout.symm.trans hlayout'
  obtain ⟨values, bytes, rfl, hbytes, hheld, hposition, hcovered, hfixed⟩ :=
    encode_of_decodeInline hplan hinner hstruct hdirect hplace hinline htexts
  have hencoded : encodeValue c (encodeStruct c depth) depth f siblings cur.position
      (.struct values) = .ok (Piece.ofBytes bytes) :=
    (encodeValue_struct_eq_ok hscalar hsingle).2 ⟨values, layout, rfl, hlayout, hbytes⟩
  refine ⟨bytes, hencoded, hheld, hposition, by omega, ?_⟩
  rw [(hplan.structs hstruct).size_eq, WireSize.ofStruct] at hsize hfixed
  split at hsize
  · next hconstant => exact measures_fixed hsize (hfixed _ (if_pos hconstant))
  · exact measures_composite hsize

/-- Structs one after the other. -/
theorem restored_structArray {counter : String} (hformat : f.format = .structArray)
    (hsize : f.size = .repeated counter layout.size) (hcounter : f.sizeField? = some counter)
    (hother : counter ≠ f.name) (hcount : countOf f siblings = countOf f seen) :
    ∃ bytes, Restored c data depth f siblings seen value cur after bytes := by
  have hlayout : c.structOf f = .ok layout := structOf_eq_ok.2 ⟨t, htype, hstruct⟩
  have harray : f.format.isArray = true := by rw [hformat]; rfl
  obtain ⟨items, count, rfl, hseen, hitems⟩ := (decodeValue_array_eq_ok harray).1 h
  rw [decodeItems, hformat] at hitems
  dsimp only at hitems
  rw [hlayout] at hitems
  obtain ⟨_, bytes, rfl, rfl, hbytes, hheld, hposition, hcovered, hfixed⟩ :=
    encode_of_decodeStructs hplan hinner hstruct hdirect hplace hitems htexts f.name
  refine ⟨bytes, ?_, hheld, hposition, hcovered,
    measures_repeated hsize hcounter hother hseen hfixed⟩
  refine (encodeValue_array_eq_ok harray).2 ⟨items, rfl, hcount.trans hseen, ?_⟩
  rw [encodeItems, hformat]
  exact bind_eq_ok.2 ⟨layout, hlayout, hbytes⟩

end Value

/-- **A value is restored.** The cases are those of the sizes that formats call for. -/
theorem encode_of_decodeValue {c : Codec} {data : Array UInt8} {depth : Nat}
    (hplan : c.plan.WellFormed) (hinner : Restores c data depth) {fields : List PlacedField}
    (hdirect : Direct c.plan.struct? fields) {f : PlacedField} (hf : f ∈ fields)
    (hsized : SizeFits c.plan.struct? f.toField f.size)
    (hcarries : f.format.hasLengthPrefix = true → f.lengthFormat.isLengthPrefix = true)
    (hother : ∀ counter, f.sizeField? = some counter → counter ≠ f.name) {siblings seen : Fields}
    (hcount : f.format.isArray = true → countOf f siblings = countOf f seen) {value : Value}
    {cur after : Cursor} (hplace : cur.position ≤ data.size)
    (h : decodeValue c data (decodeStruct c data depth) f seen cur = .ok (value, after))
    (htexts : ValidTexts after.texts) :
    ∃ bytes, Restored c data depth f siblings seen value cur after bytes := by
  generalize hsize : f.size = size at hsized
  cases hsized with
  | scalar hformat helement =>
    refine restored_scalar h htexts hformat ?_ fun bytes hbytes =>
      measures_fixed hsize (Element.length_of_encode hbytes helement)
    rintro rfl
    cases helement
  | string hformat =>
    refine restored_scalar (e := .string) h htexts (by rw [hformat]; rfl) ?_
      fun bytes hbytes => measures_string hformat hsize (Element.le_length_of_encode hbytes)
    exact fun _ => hcarries (by rw [hformat]; rfl)
  | array hformat helement hcounter =>
    refine restored_array h htexts hplace hformat hsize hcounter (hother _ hcounter) ?_ ?_
      (hcount (by rw [hformat]; rfl))
    · rintro rfl
      cases helement
    · rintro n heq
      cases heq
      exact helement
  | strings hformat hcounter =>
    refine restored_array h htexts hplace hformat hsize hcounter (hother _ hcounter) ?_ nofun
      (hcount (by rw [hformat]; rfl))
    exact fun _ => hcarries (by rw [hformat]; rfl)
  | struct hformat htype hstruct =>
    have hshape : f.format.isStructShaped = true := by
      rcases hformat with heq | heq <;> rw [heq] <;> rfl
    exact restored_struct h htexts hplace hplan hinner htype hstruct
      (hdirect.members hf hshape htype hstruct) hformat hsize
  | structArray hformat hcounter htype hstruct =>
    exact restored_structArray h htexts hplace hplan hinner htype hstruct
      (hdirect.members hf (by rw [hformat]; rfl) htype hstruct) hformat hsize hcounter
      (hother _ hcounter) (hcount (by rw [hformat]; rfl))
  | slots hformat _ _ _ => exact absurd hformat (hdirect (.here hf))

/-! ## Fields -/

/-- A header that tells what a value takes is the one that is written. -/
theorem encode_of_decodeHeader {c : Codec} {data : Array UInt8} {f : PlacedField}
    (hheader : f.header = 0 ∨ f.header = headerSize) {place taken : Nat}
    (hplace : place ≤ data.size) {declared? : Option Nat}
    (h : decodeHeader c data f (place + f.header) = .ok declared?)
    (hcheck : checkHeaderLength f declared? taken = .ok ()) :
    ∃ header, encodeHeader c f taken = .ok header ∧ Held data place header ∧
      header.length = f.header := by
  unfold decodeHeader at h
  unfold encodeHeader
  split at h
  · next hnone =>
    exact ⟨[], if_pos hnone, ⟨hplace, List.nil_prefix⟩, hnone.symm⟩
  · next hsome =>
    dsimp only at h
    rw [Nat.add_sub_cancel] at h
    obtain ⟨tag, htag, h⟩ := bind_eq_ok.1 h
    split at h
    · next hfound =>
      obtain ⟨declared, hdeclared, h⟩ := bind_eq_ok.1 h
      cases pure_eq_ok.1 h
      obtain ⟨rfl, -⟩ := ite_eq_ok.1 hcheck
      obtain ⟨hheldTag, hbyte⟩ := readNumber_eq_ok.1 htag
      obtain ⟨hheldLength, hlength⟩ := readNumber_eq_ok.1 hdeclared
      have htagByte : c.order.bytes 1 tag = [f.tag?.getD 0] := by
        have hsame : (f.tag?.getD 0).toNat = tag := by
          rw [← hfound, UInt8.toNat_ofNat']
          exact Nat.mod_eq_of_lt hbyte
        rw [← hsame, c.order.bytes_one]
      rw [htagByte] at hheldTag
      refine ⟨f.tag?.getD 0 :: c.order.bytes 2 declared, ?_, ?_, ?_⟩
      · rw [if_neg hsome]
        exact if_pos hlength
      · exact held_append.2 ⟨hheldTag, hheldLength⟩
      · rw [List.length_cons, c.order.length_bytes, hheader.resolve_left hsome]
        rfl
    · cases h

/-- A field is restored with its header. -/
theorem encode_of_decodeField {c : Codec} {data : Array UInt8} {depth : Nat} {f : PlacedField}
    (hheader : f.header = 0 ∨ f.header = headerSize) {siblings seen : Fields} {value : Value}
    {cur after : Cursor} {place : Nat} (hplace : place ≤ data.size) {declared? : Option Nat}
    (hdeclared : decodeHeader c data f (place + f.header) = .ok declared?)
    (hcheck : checkHeaderLength f declared? (after.position - (place + f.header)) = .ok ())
    (hvalue : place + f.header ≤ data.size → ∃ bytes,
      Restored c data depth f siblings seen value (cur.seek (place + f.header)) after bytes) :
    ∃ header bytes, header.length = f.header ∧ encodeHeader c f bytes.length = .ok header ∧
      Held data place header ∧
      Restored c data depth f siblings seen value (cur.seek (place + f.header)) after bytes ∧
      after.position - (place + f.header) = bytes.length := by
  obtain ⟨header, hencoded, hheld, hlength⟩ :=
    encode_of_decodeHeader hheader hplace hdeclared hcheck
  obtain ⟨bytes, hbytes⟩ := hvalue (hlength ▸ hheld.le_size)
  have htaken : after.position - (place + f.header) = bytes.length := by
    rw [hbytes.position, Cursor.position_seek]
    omega
  exact ⟨header, bytes, hlength, htaken ▸ hencoded, hheld, hbytes, htaken⟩

/-- A list is encoded as the header and the value of its first field and as the others. -/
theorem encodeFields_of_restored {c : Codec} {data : Array UInt8} {depth : Nat} {f : PlacedField}
    {rest : List PlacedField} {result seen : Fields} {value : Value} {cur after : Cursor}
    {known : Known} {base offset place start : Nat} {endOffset : Offset}
    {header bytes others : List UInt8}
    (hpresent : Prerequisite.allHold f.prerequisites result = .ok true)
    (hfound : result.find? f.name = some value) (heval : f.offset.evaluate? known = some offset)
    (hstart : base + offset = start)
    (hplace : start = place + (if f.header = 0 then 0 else headerSize))
    (hheader : encodeHeader c f bytes.length = .ok header)
    (hbytes : Restored c data depth f result seen value (cur.seek start) after bytes)
    (hothers : encodeFields c (encodeStruct c depth) depth result base endOffset
      (start + bytes.length) (known.record f.toField value bytes.length) rest =
        .ok (Piece.ofBytes others)) :
    encodeFields c (encodeStruct c depth) depth result base endOffset place known (f :: rest) =
      .ok (Piece.ofBytes (header ++ (bytes ++ others))) := by
  subst hstart
  refine encodeFields_cons_eq_ok.2 (.inr ⟨hpresent, value, offset, Piece.ofBytes bytes, header,
    Piece.ofBytes others, hfound, heval, hplace, hbytes.encoded, ?_, ?_, ?_⟩)
  · rwa [Piece.size_ofBytes]
  · rwa [Piece.size_ofBytes]
  · rw [Piece.ofBytes_append, Piece.ofBytes_append]

/-- **Fields are restored.** The induction is on the fields that remain of the list; what it carries
is that offsets track the bytes read so far. -/
theorem encode_of_decodeFields {c : Codec} {data : Array UInt8} {depth : Nat}
    (hplan : c.plan.WellFormed) (hinner : Restores c data depth)
    (hdata : data.size < UInt64.size / 2) {header : Nat}
    (hheader : header = 0 ∨ header = headerSize) {all : List PlacedField} {endOffset : Offset}
    (hplaced : WellPlaced c.plan.struct? header all endOffset)
    (hdirect : Direct c.plan.struct? all) {fields : List PlacedField} (hsub : ∀ f ∈ fields, f ∈ all)
    {before : List String} (horder : Field.InOrder before (fields.map (·.toField))) {o : Offset}
    (hwalk : PlacedFrom header o fields endOffset) {known : Known} {seen : Fields} {n : Nat}
    (htracks : Tracks o known before seen n) {base : Nat} (hplace : base + n ≤ data.size)
    {result : Fields} {size : Nat} {cur cur' : Cursor}
    (h : decodeFields c data (decodeStruct c data depth) base endOffset seen known cur fields =
      .ok (result, size, cur')) (htexts : ValidTexts cur'.texts) :
    ∃ bytes, encodeFields c (encodeStruct c depth) depth result base endOffset (base + n) known
        fields = .ok (Piece.ofBytes bytes) ∧
      Held data (base + n) bytes ∧ size = n + bytes.length ∧
      cur'.covered = max cur.covered (base + size) := by
  induction fields generalizing before o known seen n cur with
  | nil =>
    cases hwalk
    obtain ⟨size, hsize, heq⟩ := decodeFields_nil_eq_ok.1 h
    cases heq
    cases htracks.eq_of_evaluate? hsize (by omega)
    exact ⟨[], encodeFields_nil_eq_ok.2 ⟨⟨size, hsize, rfl⟩, rfl⟩, ⟨hplace, List.nil_prefix⟩, rfl,
      rfl⟩
  | cons f rest ih =>
    have hseen := seenAs_of_decodeFields h horder htracks.within
    obtain ⟨hfresh, hdeps, horder⟩ := horder
    obtain ⟨rfl, hoffset, hrest⟩ := hwalk.cons_inv
    obtain ⟨hf, hsub⟩ := List.forall_mem_cons.1 hsub
    have hsized := hplaced.sized f hf
    have htracksField : Tracks f.offset known before seen (n + f.header) :=
      hoffset ▸ htracks.advance f.header
    rcases decodeFields_cons_eq_ok.1 h with ⟨habsent, h⟩ | ⟨hpresent, offset, declared?, value,
      after, heval, hdeclared, hvalue, hcheck, h⟩
    · have htracks' := htracksField.without hplan.structs hsized hdeps hfresh
        (Field.isConditional_of_allHold habsent)
      obtain ⟨bytes, hbytes, hheld, hsize, hcovered⟩ := ih hsub horder hrest htracks' hplace h
      refine ⟨bytes, encodeFields_cons_eq_ok.2 (.inl ⟨?_, hbytes⟩), hheld, hsize, hcovered⟩
      rw [← hseen.allHold_eq hdeps, habsent]
    · -- The offset is evaluated to the bytes before the field and its header.
      have hword : n + f.header < UInt64.size := by
        have hsum : UInt64.size / 2 + headerSize < UInt64.size := by decide
        omega
      have hstart : base + offset = base + n + f.header := by
        rw [htracksField.eq_of_evaluate? heval hword, Nat.add_assoc]
      rw [hstart] at hdeclared hvalue hcheck h
      have hcount : f.format.isArray = true → countOf f result = countOf f seen := fun harray =>
        (hseen.countOf_eq hdeps (hplaced.counted hf harray)).symm
      have hother := Field.counter_ne hfresh hdeps
      have hkept := texts_decodeFields (keeps_decodeStruct c data depth) h
      obtain ⟨headerBytes, bytes, hlength, hencoded, hheldHeader, hbytes, htaken⟩ :=
        encode_of_decodeField hheader hplace hdeclared hcheck fun hplace' =>
          encode_of_decodeValue hplan hinner hdirect hf hsized (hplaced.lengthFormat f hf) hother
            hcount hplace' hvalue (htexts.of_suffix hkept)
      rw [htaken] at h
      have hend : base + n + f.header + bytes.length ≤ data.size := hbytes.held.le_size
      have htracks' :=
        htracksField.record hplan.structs hsized hdeps hfresh hbytes.measures f.header
      obtain ⟨others, hothers, hheldRest, hsize, hcovered⟩ :=
        ih hsub horder hrest htracks' (by omega) h
      rw [← Nat.add_assoc, ← Nat.add_assoc] at hothers hheldRest
      have hfound : result.find? f.name = some value :=
        find?_of_present (seenAs_of_decodeFields h horder (htracks.within.insert f.name value))
      have hheaderSize : base + n + f.header =
          base + n + (if f.header = 0 then 0 else headerSize) := by
        split <;> omega
      refine ⟨headerBytes ++ (bytes ++ others), ?_, ?_, ?_, ?_⟩
      · exact encodeFields_of_restored ((hseen.allHold_eq hdeps).symm.trans hpresent) hfound heval
          hstart hheaderSize hencoded hbytes hothers
      · rw [held_append, held_append, hlength]
        exact ⟨hheldHeader, hbytes.held, hheldRest⟩
      · simp only [List.length_append]
        omega
      · have hposition := hbytes.position
        have hcoveredValue := hbytes.covered
        simp only [Cursor.position_seek, Cursor.covered_seek] at hposition hcoveredValue
        rw [hcovered, Cursor.covered_cover]
        omega

/-- **Structs are restored.** The induction is on how deep structs nest. -/
theorem restores {c : Codec} {data : Array UInt8} (hplan : c.plan.WellFormed)
    (hdata : data.size < UInt64.size / 2) (depth : Nat) : Restores c data depth := by
  induction depth with
  | zero =>
    intro t layout start cur values size cur' _ _ _ h
    cases h
  | succ depth ih =>
    intro t layout start cur values size cur' ht hdirect hplace h htexts
    have hmembers := (hplan.structs ht).members
    obtain ⟨bytes, hbytes, hheld, hsize, hcovered⟩ := encode_of_decodeFields hplan ih hdata
      (.inl rfl) hmembers hdirect (fun _ hf => hf) hmembers.inOrder hmembers.placed tracks_start
      hplace h htexts
    exact ⟨bytes, hbytes, hheld, by omega, hcovered⟩

/-! ## Containers -/

/-- The strings that are read when a container is decoded, the last one first. -/
def textsRead (c : Codec) (container : ContainerLayout) (bytes : List UInt8) : List (List UInt8) :=
  match c.read container bytes with
  | .ok (_, _, cur) => cur.texts
  | .error _ => []

/-- The bytes are decoded to these values, and so many of them are covered; the strings among them
are well-formed. There are no more bytes than memory ever holds in one piece, which is as many as
the greatest signed 64-bit number tells. -/
structure Accepts (c : Codec) (container : ContainerLayout) (bytes : List UInt8) (values : Fields)
    (covered : Nat) : Prop where
  length : bytes.length < UInt64.size / 2
  decoded : c.decode container bytes = .ok (values, covered)
  texts : ValidTexts (c.textsRead container bytes)

/-- What is accepted is the encoding of its values. -/
theorem encode_of_accepts {c : Codec} (hplan : c.plan.WellFormed) {m : MessageLayout}
    (hm : m ∈ c.plan.messages) {container : ContainerLayout} (hcontainer : container ∈ m.containers)
    (hdirect : Direct c.plan.struct? container.fields) {bytes : List UInt8} {values : Fields}
    {covered : Nat} (h : Accepts c container bytes values covered) :
    covered ≤ bytes.length ∧ c.encode container values = .ok (bytes.take covered) := by
  obtain ⟨⟨values, size, cur⟩, hread, hresult⟩ := bind_eq_ok.1 h.decoded
  cases pure_eq_ok.1 hresult
  have htexts := h.texts
  rw [textsRead, hread] at htexts
  have hplaced := hplan.containers m hm container hcontainer
  obtain ⟨found, hfound, hheld, hsize, hcovered⟩ := encode_of_decodeFields hplan
    (restores hplan h.length c.nesting) h.length (headerSize_eq _) hplaced hdirect
    (fun _ hf => hf) hplaced.inOrder hplaced.placed tracks_start (Nat.zero_le _) hread htexts
  have htotal : max cur.covered size = found.length := by
    have : ({} : Cursor).covered = 0 := rfl
    omega
  have hbytes : bytes.take found.length = found := (List.prefix_iff_eq_take.1 hheld.2).symm
  have hle : found.length ≤ bytes.length := by
    have := hheld.le_size
    simpa using this
  rw [htotal, hbytes]
  have hbehind : encodeLevels c c.nesting (Piece.size (Piece.ofBytes found))
      (Piece.pointees (Piece.ofBytes found)) = .ok ([], []) := by
    rw [Piece.pointees_ofBytes, encodeLevels]
  refine ⟨hle, bind_eq_ok.2 ⟨_, hfound, bind_eq_ok.2 ⟨_, hbehind, pure_eq_ok.2 ?_⟩⟩⟩
  rw [List.append_nil, Piece.fill_ofBytes]

end WirePlan.Codec

namespace WirePlan

/-- **Encoding inverts decoding.** In every plan of a source, under either byte order, the bytes
that a container without elements behind it is decoded from are the encoding of the values decoded,
so equal values have been decoded from equal bytes. -/
theorem encode_decode_of_direct {source : String} {options : Options} {plan : Plan}
    (hplan : Plan.ofSource source options = .ok plan) {m : MessageLayout} (hm : m ∈ plan.messages)
    {container : ContainerLayout} (hcontainer : container ∈ m.containers) (order : ByteOrder)
    (hdirect : Codec.Direct plan.struct? container.fields) {bytes : List UInt8} {values : Fields}
    {covered : Nat} (h : Codec.Accepts ⟨plan, order⟩ container bytes values covered) :
    covered ≤ bytes.length ∧
      Codec.encode ⟨plan, order⟩ container values = .ok (bytes.take covered) ∧
      ∀ others covered', Codec.Accepts ⟨plan, order⟩ container others values covered' →
        others.take covered' = bytes.take covered := by
  have hwellFormed := Plan.wellFormed_ofSource hplan
  obtain ⟨hle, hencoded⟩ :=
    Codec.encode_of_accepts (c := ⟨plan, order⟩) hwellFormed hm hcontainer hdirect h
  refine ⟨hle, hencoded, fun others covered' h' => ?_⟩
  obtain ⟨-, hencoded'⟩ :=
    Codec.encode_of_accepts (c := ⟨plan, order⟩) hwellFormed hm hcontainer hdirect h'
  exact Except.ok.inj (hencoded'.symm.trans hencoded)

/-- A service with one container, under headers: a count, a text that the count gates, and as many
structs. -/
def memoSource : String :=
  "[\x7b\"type\": \"Service\", \"name\": \"S\"\x7d, \x7b\"type\": \"Client\", \"name\": \"C\"\x7d,
    \x7b\"type\": \"Message-ID-Enum\", \"name\": \"I\"\x7d,
    \x7b\"type\": \"Struct\", \"name\": \"Pair\", \"contents\": [
      \x7b\"name\": \"low\", \"format\": \"guint8\"\x7d,
      \x7b\"name\": \"high\", \"format\": \"guint16\"\x7d]\x7d,
    \x7b\"type\": \"Message\", \"name\": \"M\", \"id\": 1, \"request\": [
      \x7b\"name\": \"count\", \"id\": 1, \"format\": \"guint8\"\x7d,
      \x7b\"name\": \"note\", \"id\": 2, \"format\": \"string\",
        \"prerequisites\": [
          \x7b\"field\": \"count\", \"operation\": \">\", \"value\": \"0\"\x7d]\x7d,
      \x7b\"name\": \"pairs\", \"id\": 3, \"format\": \"struct-array\", \"struct-type\": \"Pair\",
        \"array-size-field\": \"count\"\x7d]\x7d]"

/-- The layout of its struct. -/
def pairLayout : StructLayout where
  name := "Pair"
  members := [
    { name := "low", format := .int .u8, header := 0, offset := {}, size := .fixed 1 },
    { name := "high", format := .int .u16, header := 0, offset := { constant := 1 }
      size := .fixed 2 }]
  endOffset := { constant := 3 }
  size := .fixed 3
  usage := { arrayMember := true }

/-- Its container. -/
def memoContainer : ContainerLayout where
  kind := .request
  fields := [
    { name := "count", tag? := some 1, format := .int .u8, header := 3
      offset := { constant := 3 }, size := .fixed 1 },
    { name := "note", tag? := some 2, format := .string, prerequisites := [⟨"count", .gt, .int 0⟩]
      lengthPrefix? := some .u8, header := 3, offset := { constant := 7 }
      size := .lengthPrefixed 1 },
    { name := "pairs", tag? := some 3, format := .structArray, sizeField? := some "count"
      structType? := some "Pair", header := 3
      offset := ⟨11, [.stringBytes "note", .absence "note" 4]⟩
      size := .repeated "count" (.fixed 3) }]
  endOffset := ⟨11, [.stringBytes "note", .absence "note" 4, .elements "pairs" 3 "count"]⟩

/-- Its plan. -/
def memoPlan : Plan where
  service := "S"
  variant := .tlv
  client? := some "C"
  messageIds? := some "I"
  messages := [⟨"M", "S", 1, [memoContainer]⟩]
  structs := [pairLayout]

set_option maxRecDepth 8192 in
theorem memoPlan_eq : Plan.ofSource memoSource { variant := .tlv } = .ok memoPlan := by
  refine (Plan.ofSource_ofList _ { variant := .tlv }).trans (toOption_eq_some.1 ?_)
  decide +kernel

/-- No array of the container, and none inside its struct, has its elements behind the container. -/
theorem direct_memo : Codec.Direct memoPlan.struct? memoContainer.fields := by
  have hpair : Codec.Direct memoPlan.struct? pairLayout.members := by
    intro f hf
    cases hf with
    | here hf =>
      revert f
      decide
    | @inside _ _ g _ _ hg hshape _ _ _ =>
      have hflat : ∀ g ∈ pairLayout.members, g.format.isStructShaped = false := by decide
      rw [hflat g hg] at hshape
      cases hshape
  intro f hf
  cases hf with
  | here hf =>
    revert f
    decide
  | inside _ _ _ hstruct hf =>
    cases List.mem_singleton.1 (List.mem_of_find?_eq_some hstruct)
    exact hpair hf

/-- Values for its fields. -/
def memoValues : Fields := [
  ("count", .ofNat .u8 1), ("note", .string "hi"),
  ("pairs", .array [.struct [("high", .ofNat .u16 6), ("low", .ofNat .u8 5)]])]

/-- Their bytes, and one that does not belong to them. -/
def memoBytes : List UInt8 := [1, 1, 0, 1, 2, 3, 0, 2, 104, 105, 3, 3, 0, 5, 6, 0, 9]

/-- All bytes but the last are the encoding of what they are decoded to. -/
theorem encode_decode_memo :
    Codec.decode ⟨memoPlan, .little⟩ memoContainer memoBytes = .ok (memoValues, 16) ∧
      Codec.encode ⟨memoPlan, .little⟩ memoContainer memoValues = .ok (memoBytes.take 16) := by
  have hdecoded : Codec.decode ⟨memoPlan, .little⟩ memoContainer memoBytes =
      .ok (memoValues, 16) := toOption_eq_some.1 (by decide +kernel)
  have hvalid : ∀ t ∈ [[104, 105]], (Text.utf8Text? t).isSome := by decide
  have htexts : Codec.ValidTexts (Codec.textsRead ⟨memoPlan, .little⟩ memoContainer memoBytes) :=
    hvalid
  exact ⟨hdecoded, (encode_decode_of_direct memoPlan_eq (.head _) (.head _) .little direct_memo
    ⟨by decide, hdecoded, htexts⟩).2.1⟩

end WirePlan
