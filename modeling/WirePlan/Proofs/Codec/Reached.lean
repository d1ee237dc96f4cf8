import WirePlan.Proofs.Codec.Agreement
import WirePlan.Proofs.Codec.Coverage
import WirePlan.Proofs.Codec.Failure
import WirePlan.Proofs.Plan.Depth

/-!
# Where a decoder comes to

A decoder asks the plan where the next field stands, whatever bytes it is given, and fails as if the
plan were wrong when the plan cannot tell. That never happens. At every point that a decoder comes
to (`Reached`), in the list of a container, in a struct, in an item of an array or in an element
that a slot points at, offsets are exact, as what is read of each field becomes known (`Holds`). A
step keeps this (`Holds.without`, `Holds.past`), so the offset of what comes next is always the
place just past the bytes read, behind a header (`meets_of_reached`). As every struct is in the plan
and nests no deeper than there are structs, none of the errors that speak of the plan are left
(`plain_of_reached`).

A struct that starts past the end of the data is no exception. There are no bytes to be read, so its
fields can only be structs without bytes, and its offsets stay where it starts.
-/

namespace WirePlan

namespace Codec

/-! ## Points -/

/-- Where a decoder is in a list of fields. -/
structure ListPoint where
  /-- Structs may nest as deep inside the fields. -/
  depth : Nat
  /-- The place where the list starts. -/
  base : Nat
  endOffset : Offset
  /-- The fields to come. -/
  fields : List PlacedField
  /-- The values of the fields before, and what is known of them. -/
  seen : Fields
  known : Known
  cur : Cursor
  /-- The place just past the bytes of the list that are read. -/
  place : Nat

namespace ListPoint

/-- At the start of a list. -/
def start (depth base : Nat) (endOffset : Offset) (fields : List PlacedField) (cur : Cursor) :
    ListPoint where
  depth
  base
  endOffset
  fields
  seen := []
  known := .nothing
  cur
  place := base

/-- At the start of a struct. -/
abbrev ofStruct (depth : Nat) (layout : StructLayout) (base : Nat) (cur : Cursor) : ListPoint :=
  start depth base layout.endOffset layout.members cur

/-- Past a field that is absent. -/
def without (p : ListPoint) (f : PlacedField) (rest : List PlacedField) : ListPoint :=
  { p with fields := rest, known := p.known.without f.name }

/-- Past a field whose value was read from its start on. -/
def past (p : ListPoint) (f : PlacedField) (rest : List PlacedField) (start : Nat) (value : Value)
    (after : Cursor) : ListPoint :=
  { p with
    fields := rest
    seen := p.seen.insert f.name value
    known := p.known.record f.toField value (after.position - start)
    cur := after.cover after.position
    place := after.position }

/-- What is decoded from a point on. -/
def decode (c : Codec) (data : Array UInt8) (p : ListPoint) :
    Except CodecError (Fields × Nat × Cursor) :=
  decodeFields c data (decodeStruct c data p.depth) p.base p.endOffset p.seen p.known p.cur p.fields

/-- The plan tells the place of what comes next, and this is just past the bytes read, behind the
header if a field comes next. -/
def Meets (p : ListPoint) : Prop :=
  match p.fields with
  | [] => (p.endOffset.evaluate? p.known).map (p.base + ·) = some p.place
  | f :: _ => (f.offset.evaluate? p.known).map (p.base + ·) = some (p.place + f.header)

end ListPoint

/-- The next field is on the wire, and its value starts behind a header that is read. -/
structure AtValue (c : Codec) (data : Array UInt8) (p : ListPoint) (f : PlacedField)
    (rest : List PlacedField) (start : Nat) (declared? : Option Nat) : Prop where
  fields : p.fields = f :: rest
  present : Prerequisite.allHold f.prerequisites p.seen = .ok true
  offset : (f.offset.evaluate? p.known).map (p.base + ·) = some start
  header : decodeHeader c data f start = .ok declared?

/-- A decoder comes to the point when it decodes the container. -/
inductive Reached (c : Codec) (data : Array UInt8) (container : ContainerLayout) :
    ListPoint → Prop where
  | start : Reached c data container
      (.start c.nesting 0 container.endOffset container.fields {})
  | without {p : ListPoint} {f : PlacedField} {rest : List PlacedField}
      (hp : Reached c data container p) (hfields : p.fields = f :: rest)
      (habsent : Prerequisite.allHold f.prerequisites p.seen = .ok false) :
      Reached c data container (p.without f rest)
  | past {p : ListPoint} {f : PlacedField} {rest : List PlacedField} {start : Nat}
      {declared? : Option Nat} {value : Value} {after : Cursor} (hp : Reached c data container p)
      (hat : AtValue c data p f rest start declared?)
      (hvalue : decodeValue c data (decodeStruct c data p.depth) f p.seen (p.cur.seek start) =
        .ok (value, after))
      (hlength : checkHeaderLength f declared? (after.position - start) = .ok ()) :
      Reached c data container (p.past f rest start value after)
  | struct {p : ListPoint} {f : PlacedField} {rest : List PlacedField} {start depth : Nat}
      {declared? : Option Nat} {layout : StructLayout} (hp : Reached c data container p)
      (hat : AtValue c data p f rest start declared?) (hlayout : c.structOf f = .ok layout)
      (hdepth : p.depth = depth + 1)
      (hformat : f.format = .struct ∨ f.format = .refStruct) :
      Reached c data container (.ofStruct depth layout start (p.cur.seek start))
  | item {p : ListPoint} {f : PlacedField} {rest : List PlacedField} {start depth count k : Nat}
      {declared? : Option Nat} {layout : StructLayout} {before : List Value} {cur : Cursor}
      (hp : Reached c data container p)
      (hat : AtValue c data p f rest start declared?) (hlayout : c.structOf f = .ok layout)
      (hdepth : p.depth = depth + 1) (hformat : f.format = .structArray)
      (hcount : countOf f p.seen = .ok count) (hk : k < count)
      (hbefore : decodeStructs (decodeStruct c data p.depth) layout k (p.cur.seek start) [] =
        .ok (before, cur)) :
      Reached c data container (.ofStruct depth layout cur.position cur)
  | element {p : ListPoint} {f : PlacedField} {rest : List PlacedField}
      {start depth count position slot : Nat} {declared? : Option Nat} {layout : StructLayout}
      {places behind : List Nat} {before : List Value} {cur : Cursor}
      (hp : Reached c data container p)
      (hat : AtValue c data p f rest start declared?) (hlayout : c.structOf f = .ok layout)
      (hdepth : p.depth = depth + 1) (hformat : f.format = .refStructArray)
      (hcount : countOf f p.seen = .ok count)
      (hslots : readSlots c.order data count start [] = .ok (places ++ slot :: behind, position))
      (hbefore : decodePointees (decodeStruct c data p.depth) layout places
        ((p.cur.seek start).seek position) [] = .ok (before, cur)) :
      Reached c data container (.ofStruct depth layout slot cur)

/-! ## What holds at a point -/

/-- So many bytes of the list are read, and the offset of what comes next amounts to them. They are
in the data, or the list starts past the end and has no bytes so far. -/
structure Holds (c : Codec) (data : Array UInt8) (p : ListPoint) (header : Nat) (o : Offset)
    (before : List String) (n : Nat) : Prop where
  header_le : header ≤ headerSize
  placed : PlacedFrom header o p.fields p.endOffset
  inOrder : Field.InOrder before (p.fields.map (·.toField))
  sized : ∀ f ∈ p.fields, SizeFits c.plan.struct? f.toField f.size
  shallow : ∀ f ∈ p.fields, ∀ t, f.structType? = some t →
    StructLayouts.Shallow c.plan.struct? p.depth t
  aligned : Aligned o p.known before p.seen n p.fields
  place_eq : p.place = p.base + n
  inside : p.base + n ≤ data.size ∨ n = 0 ∧ CountsNothing p.seen

variable {c : Codec} {data : Array UInt8} {p : ListPoint} {f : PlacedField}
  {rest : List PlacedField}

/-- A well-placed list holds at its start, wherever that is. -/
theorem holds_start {header : Nat} (hheader : header ≤ headerSize) {fields : List PlacedField}
    {endOffset : Offset} (hplaced : WellPlaced c.plan.struct? header fields endOffset)
    (hfits : Fits {} 0 fields) {depth : Nat}
    (hshallow : ∀ f ∈ fields, ∀ t, f.structType? = some t →
      StructLayouts.Shallow c.plan.struct? depth t) (base : Nat) (cur : Cursor) :
    Holds c data (.start depth base endOffset fields cur) header {} [] 0 where
  header_le := hheader
  placed := hplaced.placed
  inOrder := hplaced.inOrder
  sized := hplaced.sized
  shallow := hshallow
  aligned := ⟨hfits, exact_start⟩
  place_eq := rfl
  inside := .inr ⟨rfl, fun _ => rfl⟩

namespace Holds

variable {header n : Nat} {o : Offset} {before : List String}
  (h : Holds c data p header o before n)

include h

/-- No more bytes are read than there are. -/
theorem le_size : n ≤ data.size := by
  rcases h.inside with hle | ⟨rfl, -⟩
  · omega
  · exact Nat.zero_le _

/-- Places past a header are 64-bit words. -/
theorem lt_word (hdata : data.size < UInt64.size / 2) : n + header < UInt64.size := by
  have hle := h.le_size
  have hheader := h.header_le
  have hsum : UInt64.size / 2 + headerSize < UInt64.size := by decide
  omega

/-- The plan tells the place of what comes next. -/
theorem meets (hdata : data.size < UInt64.size / 2) : p.Meets := by
  have hword := h.lt_word hdata
  have hplaced := h.placed
  have haligned := h.aligned
  unfold ListPoint.Meets
  split
  · next hfields =>
    rw [hfields] at hplaced
    cases hplaced
    rw [haligned.offset.evaluate?_eq (by omega), Option.map_some, h.place_eq]
  · next f rest hfields =>
    rw [hfields] at hplaced haligned
    obtain ⟨hheader, hoffset, -⟩ := hplaced.cons_inv
    rw [(haligned.start hheader hoffset hword).evaluate?_eq hword, Option.map_some, h.place_eq,
      hheader, Nat.add_assoc]

variable (hfields : p.fields = f :: rest)

include hfields

/-- What comes before the next field is what it depends on, and the fields behind are placed past
it. -/
theorem next : (f.header = header ∧ f.offset = o.advance header ∧
      PlacedFrom header (f.offset.past header f.toField f.size) rest p.endOffset) ∧
    (f.name ∉ before ∧ (∀ d ∈ f.dependencies, d ∈ before) ∧
      Field.InOrder (f.name :: before) (rest.map (·.toField))) ∧
    Aligned o p.known before p.seen n (f :: rest) := by
  have hplaced := h.placed
  have horder := h.inOrder
  have haligned := h.aligned
  rw [hfields] at hplaced horder haligned
  exact ⟨hplaced.cons_inv, horder, haligned⟩

theorem sized_next : SizeFits c.plan.struct? f.toField f.size :=
  h.sized f (hfields ▸ .head _)

/-- Past an absent field all of this holds. -/
theorem without (hstructs : StructLayouts.WellFormed c.plan.struct?)
    (habsent : Prerequisite.allHold f.prerequisites p.seen = .ok false) :
    Holds c data (p.without f rest) header (f.offset.past header f.toField f.size)
      (f.name :: before) n := by
  obtain ⟨⟨hheader, hoffset, hrest⟩, ⟨hfresh, hdeps, horder⟩, haligned⟩ := h.next hfields
  exact {
    header_le := h.header_le
    placed := hrest
    inOrder := horder
    sized := fun g hg => h.sized g (hfields ▸ .tail _ hg)
    shallow := fun g hg => h.shallow g (hfields ▸ .tail _ hg)
    aligned := haligned.without hheader hoffset hstructs (h.sized_next hfields) hdeps hfresh
      (Field.isConditional_of_allHold habsent)
    place_eq := h.place_eq
    inside := h.inside }

end Holds

/-- The place of a value is where its offset tells. -/
theorem Holds.start_eq {header n : Nat} {o : Offset} {before : List String}
    (h : Holds c data p header o before n) (hdata : data.size < UInt64.size / 2) {start : Nat}
    {declared? : Option Nat} (hat : AtValue c data p f rest start declared?) :
    start = p.base + n + header := by
  have hmeets := h.meets hdata
  obtain ⟨⟨hheader, -, -⟩, -, -⟩ := h.next hat.fields
  rw [ListPoint.Meets, hat.fields] at hmeets
  have hstart := Option.some.inj (hat.offset.symm.trans hmeets)
  rw [hstart, h.place_eq, hheader]

/-- A value moves reading on by the bytes that are known of it. They are in the data, or there are
none and the value is a struct. -/
theorem advance_of_decodeValue (hplan : c.plan.WellFormed)
    (hsized : SizeFits c.plan.struct? f.toField f.size)
    (hother : ∀ counter, f.sizeField? = some counter → counter ≠ f.name) {seen : Fields}
    {value : Value} {cur after : Cursor}
    (hinside : cur.position ≤ data.size ∨ CountsNothing seen) {depth : Nat}
    (h : decodeValue c data (decodeStruct c data depth) f seen cur = .ok (value, after)) :
    ∃ bytes, after.position = cur.position + bytes ∧ Measures f seen value bytes ∧
      (after.position ≤ data.size ∨
        bytes = 0 ∧ data.size < cur.position ∧ CountsNothing (seen.insert f.name value)) := by
  rcases Nat.lt_or_ge data.size cur.position with hpast | hplace
  · have hcounts := hinside.resolve_left (Nat.not_le.2 hpast)
    obtain ⟨t, layout, ht, hsize, hinline⟩ := struct_of_decodeValue_past hsized hcounts hpast h
    obtain ⟨⟨members, size, after'⟩, hstruct, hinline⟩ := bind_eq_ok.1 hinline
    cases pure_eq_ok.1 hinline
    obtain ⟨hempty, rfl, -⟩ := size_of_decodeStruct_past hplan hpast depth ht hstruct
    exact ⟨0, rfl, measures_fixed (hsize.trans hempty) rfl,
      .inr ⟨rfl, hpast, hcounts.insert_struct f.name members⟩⟩
  · -- Any limit beyond the data and all slots will do, as only positions matter.
    have hlimits : Limits c.plan.struct? data (max data.size UInt32.size) [f] :=
      ⟨Nat.le_max_left _ _, fun _ place hslot => by omega⟩
    obtain ⟨bytes, hspans, hmeasures⟩ := spans_of_decodeValue hplan (staysWithin hplan depth)
      hlimits (.head _) hsized hother hplace h
    exact ⟨bytes, hspans.position, hmeasures, .inl hspans.within⟩

/-- Past a field that is read all of this holds. -/
theorem Holds.past {header n : Nat} {o : Offset} {before : List String}
    (h : Holds c data p header o before n) (hplan : c.plan.WellFormed)
    (hdata : data.size < UInt64.size / 2) {start : Nat} {declared? : Option Nat}
    (hat : AtValue c data p f rest start declared?) {value : Value} {after : Cursor}
    (hvalue : decodeValue c data (decodeStruct c data p.depth) f p.seen (p.cur.seek start) =
      .ok (value, after)) :
    ∃ n', Holds c data (p.past f rest start value after) header
      (f.offset.past header f.toField f.size) (f.name :: before) n' := by
  have hfields := hat.fields
  have hstart := h.start_eq hdata hat
  obtain ⟨⟨hheader, hoffset, hrest⟩, ⟨hfresh, hdeps, horder⟩, haligned⟩ := h.next hfields
  have hsized := h.sized_next hfields
  have hother := Field.counter_ne hfresh hdeps
  have hread : header = 0 ∨ start ≤ data.size := by
    rw [← hheader]
    exact le_size_of_decodeHeader (hheader ▸ h.header_le) hat.header
  have hinside : start ≤ data.size ∨ CountsNothing p.seen := by
    rcases h.inside with hle | ⟨rfl, hcounts⟩
    · exact .inl (by omega)
    · exact .inr hcounts
  obtain ⟨bytes, hposition, hmeasures, hafter⟩ :=
    advance_of_decodeValue hplan hsized hother hinside hvalue
  rw [Cursor.position_seek] at hposition
  have htaken : after.position - start = bytes := by omega
  have hword : n + header + bytes < UInt64.size := by
    have hsize : UInt64.size / 2 ≤ UInt64.size := by decide
    rcases hafter with hle | ⟨rfl, -, -⟩
    · omega
    · exact h.lt_word hdata
  have haligned' :=
    haligned.record hheader hoffset hplan.structs hsized hdeps hfresh hmeasures hword
  refine ⟨n + header + bytes, ?_⟩
  exact {
    header_le := h.header_le
    placed := hrest
    inOrder := horder
    sized := fun g hg => h.sized g (hfields ▸ .tail _ hg)
    shallow := fun g hg => h.shallow g (hfields ▸ .tail _ hg)
    aligned := by
      simpa only [ListPoint.past, htaken] using haligned'
    place_eq := by
      simp only [ListPoint.past]
      omega
    inside := by
      simp only [ListPoint.past]
      rcases hafter with hle | ⟨rfl, hpast, hcounts⟩
      · exact .inl (by omega)
      · -- The field starts past the end, so nothing of the list was read before it either.
        rw [Cursor.position_seek] at hpast
        have hnone : header = 0 := hread.resolve_right (by omega)
        rcases h.inside with hle | ⟨rfl, -⟩
        · omega
        · exact .inr ⟨by omega, hcounts⟩ }

/-- At the start of a struct of a field all of this holds, wherever the struct starts. -/
theorem Holds.ofStruct {header n : Nat} {o : Offset} {before : List String}
    (h : Holds c data p header o before n) (hplan : c.plan.WellFormed)
    (hfields : p.fields = f :: rest) {layout : StructLayout} (hlayout : c.structOf f = .ok layout)
    {depth : Nat} (hdepth : p.depth = depth + 1) (base : Nat) (cur : Cursor) :
    Holds c data (.ofStruct depth layout base cur) 0 {} [] 0 := by
  obtain ⟨t, htype, ht⟩ := structOf_eq_ok.1 hlayout
  have hstruct := hplan.structs ht
  have hshallow := h.shallow f (hfields ▸ .head _) t htype
  rw [hdepth] at hshallow
  exact holds_start (Nat.zero_le _) hstruct.members (.inr ⟨Nat.le_refl 0, hstruct.ungated⟩)
    (hshallow layout ht) base cur

section Container

variable (hplan : c.plan.WellFormed)
  (hshallow : ∀ t, StructLayouts.Shallow c.plan.struct? c.nesting t)
  (hdata : data.size < UInt64.size / 2) {m : MessageLayout} (hm : m ∈ c.plan.messages)
  {container : ContainerLayout} (hcontainer : container ∈ m.containers)
  (hfits : fixedBytes container.fields < UInt64.size)

include hplan hshallow hdata hm hcontainer hfits

/-- **Wherever a decoder comes to, its offsets are exact.** -/
theorem holds_of_reached (h : Reached c data container p) :
    ∃ header o before n, Holds c data p header o before n := by
  induction h with
  | start =>
    have hheader : c.plan.variant.headerSize ≤ headerSize := by
      rcases headerSize_eq c.plan.variant with heq | heq <;> rw [heq]
      exact Nat.zero_le _
    exact ⟨_, _, _, _, holds_start hheader (hplan.containers m hm container hcontainer)
      (.inl (by simpa using hfits)) (fun _ _ t _ => hshallow t) 0 {}⟩
  | without _ hfields habsent ih =>
    obtain ⟨header, o, before, n, hp⟩ := ih
    exact ⟨_, _, _, _, hp.without hfields hplan.structs habsent⟩
  | past _ hat hvalue _ ih =>
    obtain ⟨header, o, before, n, hp⟩ := ih
    obtain ⟨n', hpast⟩ := hp.past hplan hdata hat hvalue
    exact ⟨_, _, _, n', hpast⟩
  | struct _ hat hlayout hdepth _ ih | item _ hat hlayout hdepth _ _ _ _ ih
  | element _ hat hlayout hdepth _ _ _ _ ih =>
    obtain ⟨header, o, before, n, hp⟩ := ih
    exact ⟨_, _, _, _, hp.ofStruct hplan hat.fields hlayout hdepth _ _⟩

/-- The plan tells the place of what comes next, wherever a decoder comes to. -/
theorem meets_of_reached (h : Reached c data container p) : p.Meets := by
  obtain ⟨_, _, _, _, hp⟩ := holds_of_reached hplan hshallow hdata hm hcontainer hfits h
  exact hp.meets hdata

omit hplan hshallow hdata hm hcontainer hfits in
/-- A field that holds structs finds their layout, and structs may nest inside. -/
theorem Holds.exists_structOf {header n : Nat} {o : Offset} {before : List String}
    (h : Holds c data p header o before n) (hfields : p.fields = f :: rest)
    (hshape : f.format.isStructShaped = true) :
    ∃ layout depth, c.structOf f = .ok layout ∧ p.depth = depth + 1 := by
  obtain ⟨t, layout, htype, ht⟩ := (h.sized_next hfields).exists_layout hshape
  obtain ⟨depth, hdepth, -⟩ :=
    (h.shallow f (hfields ▸ .head _) t htype).exists_eq_succ ht
  exact ⟨layout, depth, structOf_eq_ok.2 ⟨t, htype, ht⟩, hdepth⟩

omit hm hcontainer hfits hshallow hdata hplan in
/-- The value of a field is read, or fails plainly, if the structs that a decoder comes to in it do.
-/
theorem plain_decodeValue {header n : Nat} {o : Offset} {before : List String}
    (hholds : Holds c data p header o before n) (hp : Reached c data container p) {start : Nat}
    {declared? : Option Nat} (hat : AtValue c data p f rest start declared?)
    (hinner : ∀ q, Reached c data container q → p.depth = q.depth + 1 → Plain (q.decode c data)) :
    Plain (decodeValue c data (decodeStruct c data p.depth) f p.seen (p.cur.seek start)) := by
  have hstruct : ∀ {depth layout base cur}, p.depth = depth + 1 →
      Reached c data container (.ofStruct depth layout base cur) →
      Plain (decodeStruct c data p.depth layout base cur) := by
    intro depth layout base cur hdepth hreached
    have hplain := hinner _ hreached hdepth
    rw [hdepth]
    exact hplain
  cases hscalar : f.format.scalar? with
  | some e =>
    rw [decodeValue, hscalar]
    exact Element.plain_decode e _
  | none =>
    cases harray : f.format.isArray with
    | false =>
      have hformat := format_of_single hscalar harray
      have hshape : f.format.isStructShaped = true := by
        rcases hformat with heq | heq <;> rw [heq] <;> rfl
      obtain ⟨layout, depth, hlayout, hdepth⟩ := hholds.exists_structOf hat.fields hshape
      rw [decodeValue, hscalar, harray, hlayout]
      exact plain_decodeInline (hstruct hdepth (.struct hp hat hlayout hdepth hformat))
    | true =>
      rw [decodeValue, hscalar, harray]
      refine (plain_countOf f p.seen).bind fun count hcount => ?_
      refine Plain.bind ?_ fun _ _ => plain_ok _
      rcases format_of_isArray harray with ⟨e, hformat⟩ | hformat | hformat
      · rw [decodeItems, hformat]
        exact Element.plain_decodeMany e count _ []
      · obtain ⟨layout, depth, hlayout, hdepth⟩ :=
          hholds.exists_structOf hat.fields (by rw [hformat]; rfl)
        rw [decodeItems, hformat]
        dsimp only
        rw [hlayout]
        exact plain_decodeStructs fun k hk before cur hbefore =>
          hstruct hdepth (.item hp hat hlayout hdepth hformat hcount hk hbefore)
      · obtain ⟨layout, depth, hlayout, hdepth⟩ :=
          hholds.exists_structOf hat.fields (by rw [hformat]; rfl)
        rw [decodeItems, hformat]
        dsimp only
        rw [hlayout]
        refine (plain_readSlots count _ []).bind fun found hslots => ?_
        obtain ⟨places, position⟩ := found
        refine Plain.bind ?_ fun _ _ => plain_ok _
        refine plain_decodePointees fun earlier slot behind hplaces before cur hbefore => ?_
        subst hplaces
        exact hstruct hdepth (.element hp hat hlayout hdepth hformat hcount hslots hbefore)

/-- From a point on the fields to come are read, or fail plainly, if the structs in them do. The
induction is on these fields. -/
theorem plain_of_inner {depth : Nat}
    (hinner : ∀ q, Reached c data container q → depth = q.depth + 1 → Plain (q.decode c data))
    {fields : List PlacedField} (hp : Reached c data container p) (hfields : p.fields = fields)
    (hdepth : p.depth = depth) : Plain (p.decode c data) := by
  induction fields generalizing p with
  | nil =>
    have hmeets := meets_of_reached hplan hshallow hdata hm hcontainer hfits hp
    rw [ListPoint.Meets, hfields] at hmeets
    obtain ⟨size, hsize, -⟩ := Option.map_eq_some_iff.1 hmeets
    rw [ListPoint.decode, hfields, decodeFields, hsize]
    exact plain_ok _
  | cons f rest ih =>
    have hmeets := meets_of_reached hplan hshallow hdata hm hcontainer hfits hp
    obtain ⟨header, o, before, n, hholds⟩ :=
      holds_of_reached hplan hshallow hdata hm hcontainer hfits hp
    rw [ListPoint.Meets, hfields] at hmeets
    obtain ⟨offset, hoffset, -⟩ := Option.map_eq_some_iff.1 hmeets
    rw [ListPoint.decode, hfields, decodeFields]
    refine (Prerequisite.plain_allHold _ _).bind fun present hpresent => ?_
    cases present with
    | false => exact ih (.without hp hfields hpresent) rfl hdepth
    | true =>
      dsimp only
      rw [if_pos rfl, hoffset]
      refine (plain_decodeHeader f _).bind fun declared? hdeclared => ?_
      have hat : AtValue c data p f rest (p.base + offset) declared? :=
        ⟨hfields, hpresent, by rw [hoffset]; rfl, hdeclared⟩
      refine (plain_decodeValue hholds hp hat (hdepth ▸ hinner)).bind fun found hvalue => ?_
      obtain ⟨value, after⟩ := found
      refine (plain_checkHeaderLength f declared? _).bind fun _ hlength => ?_
      exact ih (.past hp hat hvalue hlength) rfl hdepth

/-- **Wherever a decoder comes to, it does not fail as if the plan were wrong.** The induction is on
how deep structs may nest. -/
theorem plain_of_reached {depth : Nat} (hp : Reached c data container p)
    (hdepth : p.depth = depth) : Plain (p.decode c data) := by
  induction depth generalizing p with
  | zero =>
    exact plain_of_inner hplan hshallow hdata hm hcontainer hfits
      (fun _ _ hdeeper => absurd hdeeper (Nat.succ_ne_zero _).symm) hp rfl hdepth
  | succ depth ih =>
    exact plain_of_inner hplan hshallow hdata hm hcontainer hfits
      (fun _ hq hdeeper => ih hq (Nat.succ.inj hdeeper).symm) hp rfl hdepth

end Container

end Codec

/-- **A decoder never finds the plan wrong.** In every plan of a source, under either byte order and
whatever the bytes, decoding a container whose constants do not wrap never fails as if plan and
decoder disagreed: wherever it comes to, all that the offset of the next field or of the end needs
is known, and the offset tells the place just past the bytes read, behind the header of the field.
There are no more bytes than memory ever holds in one piece. -/
theorem plain_of_decode {source : String} {options : Options} {plan : Plan}
    (hplan : Plan.ofSource source options = .ok plan) {m : MessageLayout} (hm : m ∈ plan.messages)
    {container : ContainerLayout} (hcontainer : container ∈ m.containers) (order : ByteOrder)
    (hfits : fixedBytes container.fields < UInt64.size) {bytes : List UInt8}
    (hbytes : bytes.length < UInt64.size / 2) :
    (∀ e, Codec.decode ⟨plan, order⟩ container bytes = .error e → ¬ e.IsInternal) ∧
      ∀ p, Codec.Reached ⟨plan, order⟩ bytes.toArray container p → p.Meets := by
  have hwellFormed := Plan.wellFormed_ofSource hplan
  have hshallow := Plan.shallow_ofSource hplan
  have hdata : bytes.toArray.size < UInt64.size / 2 := hbytes
  refine ⟨fun e he => ?_, fun p hp => ?_⟩
  · have hplain := Codec.plain_of_reached (c := ⟨plan, order⟩) hwellFormed hshallow hdata hm
      hcontainer hfits .start rfl
    rcases bind_eq_error.1 he with hread | ⟨_, -, he⟩
    · exact hplain e hread
    · cases he
  · exact Codec.meets_of_reached (c := ⟨plan, order⟩) hwellFormed hshallow hdata hm hcontainer
      hfits hp

/-- Where the count is cut off from its slot a decoder fails plainly. Where the slot tells a place
past the end, the decoder comes to it, and the list that it finds there ends where it starts. -/
theorem plain_hollow :
    (Codec.decode ⟨hollowPlan, .big⟩ hollowContainer [1, 0] = .error .endOfBytes ∧
      ¬ CodecError.endOfBytes.IsInternal) ∧
    ∃ p, Codec.Reached ⟨hollowPlan, .big⟩ hollowBytes.toArray hollowContainer p ∧
      p.base = 1000 ∧ p.fields = [] ∧ p.Meets := by
  have herror : Codec.decode ⟨hollowPlan, .big⟩ hollowContainer [1, 0] = .error .endOfBytes := rfl
  refine ⟨⟨herror, ?_⟩, ?_⟩
  · exact (plain_of_decode hollowPlan_eq (.head _) (.head _) .big (by decide) (by decide)).1 _
      herror
  · have hcount : Codec.AtValue ⟨hollowPlan, .big⟩ hollowBytes.toArray
        (.start 1 0 hollowContainer.endOffset hollowContainer.fields {}) hollowContainer.fields[0]
        [hollowContainer.fields[1]] 0 none := ⟨rfl, rfl, rfl, rfl⟩
    have hone : Codec.decodeValue ⟨hollowPlan, .big⟩ hollowBytes.toArray
        (Codec.decodeStruct ⟨hollowPlan, .big⟩ hollowBytes.toArray 1) hollowContainer.fields[0] []
        (Cursor.seek {} 0) = .ok (.ofNat .u8 1, ⟨1, 0, []⟩) := rfl
    have hitems : Codec.Reached ⟨hollowPlan, .big⟩ hollowBytes.toArray hollowContainer _ :=
      .past .start hcount hone rfl
    have hslots : Codec.readSlots .big hollowBytes.toArray 1 1 [] = .ok ([] ++ 1000 :: [], 5) := rfl
    have helement := Codec.Reached.element hitems ⟨rfl, rfl, rfl, rfl⟩ rfl rfl rfl rfl hslots rfl
    refine ⟨_, helement, rfl, rfl, ?_⟩
    exact (plain_of_decode hollowPlan_eq (.head _) (.head _) .big (by decide) (by decide)).2 _
      helement

end WirePlan
