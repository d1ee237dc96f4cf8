import WirePlan.Proofs.Codec.Exact
import WirePlan.Proofs.Codec.RoundTrip

/-!
# Plan and encoder agree

The encoder stands where the plan says, unless an array of elements of fixed size is on the wire and
the field that counts its elements is not (`Uncounted`): its count is read from the values all the
same, but nothing is known of it where offsets are evaluated.

Along a list offsets stay exact as long as what counts the elements of an array was seen
(`CountsSeen`) and constants do not wrap (`Fits`). Each field keeps this (`Agrees`), absent or
there, so a mismatch can only be beyond the 64-bit words (`mismatchFrom_encodeFields`). Members of
structs are never absent, so structs need no assumption (`mismatchFrom_encodeStruct_of_plan`): where
their constants wrap, so do places. Elements behind a container are structs again. Conversely an
uncounted array leaves the end of its list unknown (`encodeFields_ne_ok_of_uncounted`).
-/

namespace WirePlan.Codec

variable {c : Codec} {inner : StructEncoder} {depth base : Nat} {values : Fields}
  {endOffset : Offset}

/-! ## One list of fields -/

/-- An array of elements of fixed size is on the wire, and the field that counts its elements is off
the wire. -/
def Uncounted (fields : List PlacedField) (values : Fields) : Prop :=
  ∃ f ∈ fields, ∃ g ∈ fields, ∃ n, f.size = .repeated g.name (.fixed n) ∧
    Prerequisite.allHold f.prerequisites values = .ok true ∧
    Prerequisite.allHold g.prerequisites values = .ok false

/-- Fields that are never absent may count anything. -/
theorem not_uncounted_of_ungated {fields : List PlacedField}
    (h : ∀ f ∈ fields, f.prerequisites = []) (values : Fields) : ¬ Uncounted fields values := by
  rintro ⟨_, -, g, hg, _, -, -, habsent⟩
  rw [h g hg] at habsent
  cases habsent

/-- What counts the elements of fields on the wire was seen as the values have it. -/
def CountsSeen (before : List String) (seen values : Fields) (fields : List PlacedField) : Prop :=
  ∀ f ∈ fields, ∀ counter ∈ before, ∀ n, f.size = .repeated counter (.fixed n) →
    Prerequisite.allHold f.prerequisites values = .ok true →
    seen.find? counter = values.find? counter

/-- The constant of an offset and the fixed bytes behind it do not wrap, or it is no more than the
bytes so far and the fields behind are never absent. -/
def Fits (o : Offset) (bytes : Nat) (fields : List PlacedField) : Prop :=
  o.constant + fixedBytes fields < UInt64.size ∨
    o.constant ≤ bytes ∧ ∀ f ∈ fields, f.prerequisites = []

section Walk

variable {o : Offset} {known : Known} {before : List String} {seen : Fields} {bytes header : Nat}
  {f : PlacedField} {rest : List PlacedField}

/-- The constant does not wrap at the header of a field that starts within a 64-bit word. -/
theorem Fits.advance (h : Fits o bytes (f :: rest)) (hheader : f.header = header)
    (hword : bytes + header < UInt64.size) : o.constant + header < UInt64.size := by
  rcases h with hfits | ⟨hle, -⟩
  · rw [fixedBytes_cons] at hfits
    omega
  · omega

/-- The constant does not wrap past a field that ends within a 64-bit word. -/
theorem Fits.past (h : Fits o bytes (f :: rest)) (hheader : f.header = header)
    (hoffset : f.offset = o.advance header) {taken : Nat} (htaken : f.size.fixedPart ≤ taken)
    (hword : bytes + header + taken < UInt64.size) :
    f.offset.constant + f.size.fixedPart < UInt64.size ∧
      Fits (f.offset.past header f.toField f.size) (bytes + header + taken) rest := by
  have hconstant : f.offset.constant = o.constant + header := by
    rw [hoffset, Offset.advance_constant, wrap64_of_lt (h.advance hheader (by omega))]
  rcases h with hfits | ⟨hle, hungated⟩
  · rw [fixedBytes_cons] at hfits
    have hpast : f.offset.constant + f.size.fixedPart < UInt64.size := by omega
    refine ⟨hpast, .inl ?_⟩
    rw [Offset.past_constant, wrap64_of_lt hpast]
    omega
  · have hpast : f.offset.constant + f.size.fixedPart < UInt64.size := by omega
    refine ⟨hpast, .inr ⟨?_, fun g hg => hungated g (.tail _ hg)⟩⟩
    rw [Offset.past_constant, wrap64_of_lt hpast]
    omega

/-- The constant does not wrap past an absent field. -/
theorem Fits.without (h : Fits o bytes (f :: rest)) (hheader : f.header = header)
    (hoffset : f.offset = o.advance header) (hgated : f.isConditional = true) :
    o.constant + header < UInt64.size ∧ f.offset.constant + f.size.fixedPart < UInt64.size ∧
      Fits (f.offset.past header f.toField f.size) bytes rest := by
  rcases h with hfits | ⟨-, hungated⟩
  · rw [fixedBytes_cons] at hfits
    have hstart : o.constant + header < UInt64.size := by omega
    have hconstant : f.offset.constant = o.constant + header := by
      rw [hoffset, Offset.advance_constant, wrap64_of_lt hstart]
    have hpast : f.offset.constant + f.size.fixedPart < UInt64.size := by omega
    refine ⟨hstart, hpast, .inl ?_⟩
    rw [Offset.past_constant, wrap64_of_lt hpast]
    omega
  · rw [Field.isConditional, hungated f (.head _)] at hgated
    cases hgated

/-- A mismatch with an exact offset is beyond the 64-bit words. -/
theorem Exact.mismatchFrom_checkPlace (h : Exact o known before seen bytes) (field : String) :
    MismatchFrom UInt64.size
      (checkPlace field ((o.evaluate? known).map (base + ·)) (base + bytes)) := by
  by_cases hword : base + bytes < UInt64.size
  · rw [checkPlace_eq_ok.2 ⟨bytes, h.evaluate?_eq (by omega), rfl⟩]
    exact mismatchFrom_ok ()
  · exact (Codec.mismatchFrom_checkPlace field _ _).mono (Nat.le_of_not_lt hword)

/-- The first field of a list sees the counts of its elements as the values have them. -/
theorem CountsSeen.countOf_eq {structs : StructLayouts} (hstructs : structs.WellFormed)
    (h : CountsSeen before seen values (f :: rest)) (hsized : SizeFits structs f.toField f.size)
    (hdeps : ∀ d ∈ f.dependencies, d ∈ before)
    (hholds : Prerequisite.allHold f.prerequisites values = .ok true) {counter : String} {n : Nat}
    (hsize : f.size = .repeated counter (.fixed n)) : countOf f seen = countOf f values := by
  rw [hsize] at hsized
  have hcounter := hsized.sizeField?_eq hstructs
  have hbefore := hdeps _ (hsized.mem_dependencies hstructs)
  rw [countOf, countOf, sizeField, hcounter, Option.getD_some,
    h f (.head _) counter hbefore n hsize hholds]

/-- A field off the wire counts nothing on the wire. -/
theorem CountsSeen.without (h : CountsSeen before seen values (f :: rest))
    (hcounted : ¬ Uncounted (f :: rest) values)
    (habsent : Prerequisite.allHold f.prerequisites values = .ok false) :
    CountsSeen (f.name :: before) seen values rest := by
  intro g hg counter hcounter n hsize hholds
  rcases List.mem_cons.1 hcounter with rfl | hcounter
  · exact absurd ⟨g, .tail _ hg, f, .head _, n, hsize, hholds, habsent⟩ hcounted
  · exact h g (.tail _ hg) counter hcounter n hsize hholds

/-- A field on the wire is seen as the values have it. -/
theorem CountsSeen.record (h : CountsSeen before seen values (f :: rest)) {value : Value}
    (hvalue : values.find? f.name = some value) :
    CountsSeen (f.name :: before) (seen.insert f.name value) values rest := by
  intro g hg counter hcounter n hsize hholds
  rw [Keyed.find?_insert]
  split
  · next hname => rw [← hname, hvalue]
  · next hname =>
    refine h g (.tail _ hg) counter ?_ n hsize hholds
    exact (List.mem_cons.1 hcounter).resolve_left fun heq => hname heq.symm

/-! ### From field to field -/

/-- Before a list the offset is exact and its constants fit. -/
structure Aligned (o : Offset) (known : Known) (before : List String) (seen : Fields)
    (bytes : Nat) (fields : List PlacedField) : Prop where
  fits : Fits o bytes fields
  offset : Exact o known before seen bytes

section Aligned

variable (h : Aligned o known before seen bytes (f :: rest)) (hheader : f.header = header)
  (hoffset : f.offset = o.advance header)

include h hheader hoffset

/-- Where a field starts within a 64-bit word its offset is exact. -/
theorem Aligned.start (hword : bytes + header < UInt64.size) :
    Exact f.offset known before seen (bytes + header) :=
  hoffset ▸ h.offset.advance (h.fits.advance hheader hword)

variable {structs : StructLayouts} (hstructs : structs.WellFormed)
  (hsized : SizeFits structs f.toField f.size) (hdeps : ∀ d ∈ f.dependencies, d ∈ before)
  (hfresh : f.name ∉ before)

include hstructs hsized hdeps hfresh

/-- Past an absent field the offset is as exact. -/
theorem Aligned.without (hgated : f.isConditional = true) :
    Aligned (f.offset.past header f.toField f.size) (known.without f.name) (f.name :: before) seen
      bytes rest := by
  obtain ⟨hstart, hpast, hfits⟩ := h.fits.without hheader hoffset hgated
  have hback : header + f.size.fixedPart < UInt64.size := by
    rw [hoffset, Offset.advance_constant, wrap64_of_lt hstart] at hpast
    omega
  have hexact : Exact f.offset known before seen (bytes + header) :=
    hoffset ▸ h.offset.advance hstart
  exact ⟨hfits, hexact.without hstructs hsized hdeps hfresh hgated hpast hback⟩

/-- Past a field that ends within a 64-bit word the offset is as exact. -/
theorem Aligned.record {value : Value} {taken : Nat} (hmeasures : Measures f seen value taken)
    (hword : bytes + header + taken < UInt64.size) :
    Aligned (f.offset.past header f.toField f.size) (known.record f.toField value taken)
      (f.name :: before) (seen.insert f.name value) (bytes + header + taken) rest := by
  obtain ⟨hpast, hfits⟩ := h.fits.past hheader hoffset hmeasures.fixedPart_le hword
  have hexact := h.start hheader hoffset (by omega)
  exact ⟨hfits, hexact.record hstructs hsized hdeps hfresh hmeasures hpast (by omega) header⟩

end Aligned

/-- Before a list the offset is exact, its constants fit, and counts were seen. -/
structure Agrees (o : Offset) (known : Known) (before : List String) (seen values : Fields)
    (bytes : Nat) (fields : List PlacedField) : Prop where
  fits : Fits o bytes fields
  offset : Exact o known before seen bytes
  counts : CountsSeen before seen values fields

theorem Agrees.aligned {fields : List PlacedField}
    (h : Agrees o known before seen values bytes fields) :
    Aligned o known before seen bytes fields :=
  ⟨h.fits, h.offset⟩

/-- Before the first field plan and encoder agree. -/
theorem agrees_start {fields : List PlacedField} (h : Fits {} 0 fields) :
    Agrees {} .nothing [] [] values 0 fields :=
  ⟨h, exact_start, fun _ _ _ hcounter => absurd hcounter List.not_mem_nil⟩

section Field

variable (h : Agrees o known before seen values bytes (f :: rest)) (hheader : f.header = header)
  (hoffset : f.offset = o.advance header)

include h hheader hoffset

/-- Where a field starts within a 64-bit word its offset is exact. -/
theorem Agrees.start (hword : bytes + header < UInt64.size) :
    Exact f.offset known before seen (bytes + header) :=
  h.aligned.start hheader hoffset hword

variable {structs : StructLayouts} (hstructs : structs.WellFormed)
  (hsized : SizeFits structs f.toField f.size) (hdeps : ∀ d ∈ f.dependencies, d ∈ before)
  (hfresh : f.name ∉ before)

include hstructs hsized hdeps hfresh

/-- Past an absent field plan and encoder still agree, if it does not count what is on the wire. -/
theorem Agrees.without (hcounted : ¬ Uncounted (f :: rest) values)
    (habsent : Prerequisite.allHold f.prerequisites values = .ok false) :
    Agrees (f.offset.past header f.toField f.size) (known.without f.name) (f.name :: before) seen
      values bytes rest := by
  have haligned := h.aligned.without hheader hoffset hstructs hsized hdeps hfresh
    (Field.isConditional_of_allHold habsent)
  exact ⟨haligned.fits, haligned.offset, h.counts.without hcounted habsent⟩

/-- Past a field that ends within a 64-bit word plan and encoder still agree. -/
theorem Agrees.record {value : Value} {taken : Nat} (hvalue : values.find? f.name = some value)
    (hmeasures : Measures f seen value taken) (hword : bytes + header + taken < UInt64.size) :
    Agrees (f.offset.past header f.toField f.size) (known.record f.toField value taken)
      (f.name :: before) (seen.insert f.name value) values (bytes + header + taken) rest := by
  have haligned :=
    h.aligned.record hheader hoffset hstructs hsized hdeps hfresh hmeasures hword
  exact ⟨haligned.fits, haligned.offset, h.counts.record hvalue⟩

end Field

/-- **A list whose arrays are counted is encoded where the plan says**, as far as places are 64-bit
words. The induction is on the fields. -/
theorem mismatchFrom_encodeFields (hplan : c.plan.WellFormed) (hsizes : KeepsSizes c inner)
    (hinner : ∀ (layout : StructLayout) (values : Fields) (start : Nat),
      MismatchFrom start (inner layout values start))
    (hdeep : ∀ {t : String} {layout : StructLayout}, c.plan.struct? t = some layout →
      ∀ (values : Fields) (start : Nat), MismatchFrom UInt64.size (inner layout values start))
    (hheader : header = 0 ∨ header = headerSize) {fields : List PlacedField}
    (hplaced : PlacedFrom header o fields endOffset)
    (horder : Field.InOrder before (fields.map (·.toField)))
    (hsized : ∀ f ∈ fields, SizeFits c.plan.struct? f.toField f.size)
    (hcounted : ¬ Uncounted fields values)
    (hagrees : Agrees o known before seen values bytes fields) :
    MismatchFrom UInt64.size
      (encodeFields c inner depth values base endOffset (base + bytes) known fields) := by
  induction fields generalizing o known before seen bytes with
  | nil =>
    cases hplaced
    exact (hagrees.offset.mismatchFrom_checkPlace _).bind fun _ _ => mismatchFrom_ok _
  | cons f rest ih =>
    obtain ⟨hf, hoffset, hrest⟩ := hplaced.cons_inv
    obtain ⟨hfresh, hdeps, horder⟩ := horder
    have hsize := hsized f (.head _)
    have hsized' : ∀ g ∈ rest, SizeFits c.plan.struct? g.toField g.size :=
      fun g hg => hsized g (.tail _ hg)
    have hcounted' : ¬ Uncounted rest values := fun ⟨g, hg, k, hk, huncounted⟩ =>
      hcounted ⟨g, .tail _ hg, k, .tail _ hk, huncounted⟩
    unfold encodeFields
    refine (mismatchFrom_allHold f.prerequisites values).bind fun holds hholds => ?_
    cases holds with
    | false =>
      exact ih hrest horder hsized' hcounted'
        (hagrees.without hf hoffset hplan.structs hsize hdeps hfresh hcounted hholds)
    | true =>
      have hplace : base + bytes + (if f.header = 0 then 0 else headerSize) =
          base + (bytes + header) := by
        rw [hf, Nat.add_assoc]
        rcases hheader with rfl | rfl
        · rfl
        · rfl
      have hother := Field.counter_ne hfresh hdeps
      dsimp only
      rw [if_pos rfl, hplace]
      split
      · exact fun _ _ _ h => nomatch h
      · next value hvalue =>
        have hcheck : MismatchFrom UInt64.size (checkPlace f.name
            ((f.offset.evaluate? known).map (base + ·)) (base + (bytes + header))) := by
          by_cases hword : base + (bytes + header) < UInt64.size
          · exact (hagrees.start hf hoffset (by omega)).mismatchFrom_checkPlace f.name
          · exact (mismatchFrom_checkPlace _ _ _).mono (Nat.le_of_not_lt hword)
        refine hcheck.bind fun _ _ => ?_
        refine (mismatchFrom_encodeValue (fun ht m start _ => hdeep ht m start) f values
          value).bind fun pieces hpieces => ?_
        refine (mismatchFrom_encodeHeader c f _).bind fun _ _ => ?_
        refine MismatchFrom.bind ?_ fun _ _ => mismatchFrom_ok _
        have hmeasures := measures_of_encodeValue hplan hsizes hsize hother
          (fun _ _ => hagrees.counts.countOf_eq hplan.structs hsize hdeps hholds) hpieces
        -- the encoder goes on within the words, or everything behind is beyond them
        by_cases hword : base + (bytes + header) + Piece.size pieces < UInt64.size
        · have hnext := hagrees.record hf hoffset hplan.structs hsize hdeps hfresh hvalue hmeasures
            (by omega)
          rw [Nat.add_assoc]
          exact ih hrest horder hsized' hcounted' hnext
        · exact (mismatchFrom_start hinner).mono (Nat.le_of_not_lt hword)

end Walk

/-! ## Structs, elements and containers -/

/-- **Structs are encoded where the plan says.** The induction is on how deep structs nest. -/
theorem mismatchFrom_encodeStruct_of_plan (hplan : c.plan.WellFormed) (depth : Nat) {t : String}
    {layout : StructLayout} (ht : c.plan.struct? t = some layout) (values : Fields)
    (start : Nat) : MismatchFrom UInt64.size (encodeStruct c depth layout values start) := by
  induction depth generalizing t layout values start with
  | zero => exact fun _ _ _ h => nomatch h
  | succ depth ih =>
    have hlayout := hplan.structs ht
    have hmembers := hlayout.members
    exact mismatchFrom_encodeFields hplan (keepsSizes_encodeStruct hplan depth)
      (mismatchFrom_encodeStruct depth) (fun ht values start => ih ht values start) (.inl rfl)
      hmembers.placed hmembers.inOrder hmembers.sized
      (not_uncounted_of_ungated hlayout.ungated values)
      (agrees_start (.inr ⟨Nat.le_refl 0, hlayout.ungated⟩))

/-- Elements are encoded where the plan says, one after the other. -/
theorem mismatchFrom_encodePointees (hplan : c.plan.WellFormed) {start : Nat}
    {elements : List Pointee} (helements : OfPlan c elements) :
    MismatchFrom UInt64.size (encodePointees c start elements) := by
  induction elements generalizing start with
  | nil => exact mismatchFrom_ok _
  | cons p rest ih =>
    obtain ⟨t, ht⟩ := helements p (.head _)
    unfold encodePointees
    split
    · refine (mismatchFrom_encodeStruct_of_plan hplan p.depth ht p.values start).bind fun _ _ => ?_
      refine (ih fun q hq => helements q (.tail _ hq)).bind fun _ _ => ?_
      exact mismatchFrom_ok _
    · intro _ _ _ h
      cases h

/-- Elements are encoded where the plan says, level after level. -/
theorem mismatchFrom_encodeLevels (hplan : c.plan.WellFormed) {levels start : Nat}
    {elements : List Pointee} (helements : OfPlan c elements) :
    MismatchFrom UInt64.size (encodeLevels c levels start elements) := by
  induction levels generalizing start elements with
  | zero =>
    cases elements with
    | nil => exact mismatchFrom_ok _
    | cons p rest => exact fun _ _ _ h => nomatch h
  | succ levels ih =>
    cases elements with
    | nil => exact mismatchFrom_ok _
    | cons p rest =>
      refine (mismatchFrom_encodePointees hplan helements).bind fun found hfound => ?_
      refine (ih (ofPlan_encodePointees hfound).2).bind fun _ _ => ?_
      exact mismatchFrom_ok _

/-- A container whose arrays are counted is encoded where the plan says, if the constants of the
plan do not wrap. -/
theorem mismatchFrom_encode_of_counted (hplan : c.plan.WellFormed) {m : MessageLayout}
    (hm : m ∈ c.plan.messages) {container : ContainerLayout} (hcontainer : container ∈ m.containers)
    (hcounted : ¬ Uncounted container.fields values)
    (hfits : fixedBytes container.fields < UInt64.size) :
    MismatchFrom UInt64.size (c.encode container values) := by
  have hplaced := hplan.containers m hm container hcontainer
  have hstart : Fits {} 0 container.fields := .inl (by simpa using hfits)
  refine MismatchFrom.bind ?_ fun inline hinline => ?_
  · exact mismatchFrom_encodeFields hplan (keepsSizes_encodeStruct hplan c.nesting)
      (mismatchFrom_encodeStruct c.nesting)
      (fun ht => mismatchFrom_encodeStruct_of_plan hplan c.nesting ht) (headerSize_eq _)
      hplaced.placed hplaced.inOrder hplaced.sized hcounted (agrees_start hstart)
  · refine (mismatchFrom_encodeLevels hplan
      (ofPlan_encodeFields ofPlan_encodeStruct hinline)).bind fun _ _ => ?_
    exact mismatchFrom_ok _

/-! ## Uncounted arrays -/

/-- **The end of an uncounted array is not known**, so its list is not encoded. -/
theorem encodeFields_ne_ok_of_uncounted {structs : StructLayouts} {header : Nat}
    {fields : List PlacedField} (hplaced : WellPlaced structs header fields endOffset)
    (h : Uncounted fields values) {place : Nat} {pieces : List Piece} :
    encodeFields c inner depth values base endOffset place .nothing fields ≠ .ok pieces := by
  obtain ⟨f, hf, g, hg, n, hsize, hholds, habsent⟩ := h
  intro hpieces
  obtain ⟨known, size, heval, -, hpresent, hcount⟩ := exists_known_of_encodeFields hpieces
  have hpresent' : known.isPresent f.name = true := by
    refine hpresent f.name fun k hk hname => ?_
    rwa [List.inj_on_of_nodup_map hplaced.nodup hk hf hname]
  have hcount' : known.count? g.name = none := by
    refine hcount g.name fun k hk hname => ?_
    rwa [List.inj_on_of_nodup_map hplaced.nodup hk hg hname]
  have hterm : Offset.Term.elements f.name n g.name ∈ endOffset.terms :=
    hplaced.placed.mem_terms hf (by rw [hsize]; rfl)
  obtain ⟨v, hv⟩ := Offset.exists_value_of_evaluate? heval _ hterm
  rw [Offset.Term.value?, if_pos hpresent', hcount'] at hv
  cases hv

end WirePlan.Codec

namespace WirePlan

/-- **Plan and encoder disagree on uncounted arrays only.** In every plan of a source, under either
byte order and whatever the values, the encoder finds a field or an end at another place, within the
64-bit words, only if an array is on the wire without the field that counts its elements, or if the
constants of the container wrap. A container with an uncounted array is never encoded. -/
theorem uncounted_of_layoutMismatch {source : String} {options : Options} {plan : Plan}
    (hplan : Plan.ofSource source options = .ok plan) {m : MessageLayout} (hm : m ∈ plan.messages)
    {container : ContainerLayout} (hcontainer : container ∈ m.containers) (order : ByteOrder)
    (values : Fields) :
    (∀ (field : String) (expected : Option Nat) (actual : Nat),
      Codec.encode ⟨plan, order⟩ container values =
        .error (.layoutMismatch field expected actual) → actual < UInt64.size →
      Codec.Uncounted container.fields values ∨ UInt64.size ≤ fixedBytes container.fields) ∧
    (Codec.Uncounted container.fields values →
      ∀ bytes, Codec.encode ⟨plan, order⟩ container values ≠ .ok bytes) := by
  have hwellFormed := Plan.wellFormed_ofSource hplan
  constructor
  · intro field expected actual herror hactual
    by_contra hnot
    obtain ⟨hcounted, hfits⟩ := not_or.1 hnot
    have hfar := Codec.mismatchFrom_encode_of_counted (c := ⟨plan, order⟩) hwellFormed hm hcontainer
      hcounted (Nat.lt_of_not_le hfits) field expected actual herror
    exact absurd hactual (Nat.not_lt.2 hfar)
  · intro huncounted bytes hbytes
    obtain ⟨inline, hinline, -⟩ := bind_eq_ok.1 hbytes
    exact Codec.encodeFields_ne_ok_of_uncounted
      (hwellFormed.containers m hm container hcontainer) huncounted hinline

/-- A service with one container, in which a flag gates what counts the items of an array, but not
the array. -/
def tallySource : String :=
  "[\x7b\"type\": \"Service\", \"name\": \"S\"\x7d,
    \x7b\"type\": \"Message\", \"name\": \"M\", \"id\": 1, \"request\": [
      \x7b\"name\": \"flag\", \"format\": \"guint8\"\x7d,
      \x7b\"name\": \"n\", \"format\": \"guint8\",
        \"prerequisites\": [
          \x7b\"field\": \"flag\", \"operation\": \"==\", \"value\": \"1\"\x7d]\x7d,
      \x7b\"name\": \"items\", \"format\": \"guint16-array\",
        \"array-size-field\": \"n\"\x7d]\x7d]"

/-- Its container. -/
def tallyContainer : ContainerLayout where
  kind := .request
  fields := [
    { name := "flag", format := .int .u8, header := 0, offset := {}, size := .fixed 1 },
    { name := "n", format := .int .u8, prerequisites := [⟨"flag", .eq, .int 1⟩]
      header := 0, offset := { constant := 1 }, size := .fixed 1 },
    { name := "items", format := .array (.int .u16), sizeField? := some "n"
      header := 0, offset := ⟨2, [.absence "n" 1]⟩, size := .repeated "n" (.fixed 2) }]
  endOffset := ⟨2, [.absence "n" 1, .elements "items" 2 "n"]⟩

/-- Its plan. -/
def tallyPlan : Plan where
  service := "S"
  variant := .fixed
  messages := [⟨"M", "S", 1, [tallyContainer]⟩]
  structs := []

set_option maxRecDepth 4096 in
theorem tallyPlan_eq : Plan.ofSource tallySource {} = .ok tallyPlan := by
  refine (Plan.ofSource_ofList _ {}).trans (toOption_eq_some.1 ?_)
  decide +kernel

/-- Values for its fields, the flag off. -/
def tallyValues : Fields :=
  [("flag", .ofNat .u8 0), ("items", .array [.ofNat .u16 7]), ("n", .ofNat .u8 1)]

/-- With the flag off the item is written, but its count is not: the end of the container is not
known. -/
theorem uncounted_tally :
    Codec.encode ⟨tallyPlan, .big⟩ tallyContainer tallyValues =
        .error (.layoutMismatch CodecError.endName none 3) ∧
      Codec.Uncounted tallyContainer.fields tallyValues := by
  have hencode : Codec.encode ⟨tallyPlan, .big⟩ tallyContainer tallyValues =
      .error (.layoutMismatch CodecError.endName none 3) := rfl
  refine ⟨hencode, ?_⟩
  have h := uncounted_of_layoutMismatch tallyPlan_eq (.head _) (.head _) .big tallyValues
  exact (h.1 _ _ _ hencode (by decide)).resolve_right (by decide)

/-- It is not so that the encoder always stands where the plan says. -/
theorem not_forall_encode_ne_layoutMismatch :
    ¬ ∀ (source : String) (options : Options) (plan : Plan) (m : MessageLayout)
      (container : ContainerLayout) (order : ByteOrder) (values : Fields) (field : String)
      (expected : Option Nat) (actual : Nat),
      Plan.ofSource source options = .ok plan → m ∈ plan.messages → container ∈ m.containers →
      Codec.encode ⟨plan, order⟩ container values ≠
        .error (.layoutMismatch field expected actual) := by
  intro h
  exact h tallySource {} tallyPlan _ tallyContainer .big tallyValues CodecError.endName none 3
    tallyPlan_eq (.head _) (.head _) rfl

end WirePlan
