import WirePlan.Proofs.Codec.Acceptance
import WirePlan.Proofs.Codec.Queue
import WirePlan.Proofs.Codec.Recursion

/-!
# The turns of the queue

The queue that puts elements behind a container grows while it is drained. That it ends is seen in
the values, which hold so many elements of indirect arrays and no more (`listElements`). Encoding a
struct leaves slots for those that are in no other, and all others are inside these
(`Codec.Leads`). A turn takes one element out and puts those next inside it in, so it leaves one
element less, counted with all that are inside (`Codec.Turn.remaining_perm`). There are as many
turns as there are elements, and in a finished run every one has had its turn
(`Codec.Run.remaining_perm`).

The encoder goes into structs as the decoder does, so it does not nest too deep either
(`Codec.isShallow_encode`).
-/

namespace WirePlan

/-! ## The elements in a dictionary -/

/-- What the value of a field has, by the entries of a dictionary. -/
def elementsOf (entries : Keyed (PlacedField → List Remote)) (f : PlacedField) : List Remote :=
  match entries.find? f.name with
  | some value => value f
  | none => []

mutual

/-- The elements of indirect arrays in the value of a field, those inside of others too. -/
def Value.elements (structs : StructLayouts) : Value → PlacedField → List Remote
  | .struct members, f =>
    match f.structType?.bind structs with
    | some layout =>
      (if f.isIndirect then [⟨layout, members⟩] else []) ++
        (layout.members.filter (·.isOnWire members)).flatMap
          (elementsOf (entryElements structs members))
    | none => []
  | .array items, f => itemElements structs items f
  | .int .., _ | .uuid _, _ | .string _, _ | .ipv4 _, _ | .ipv6 _, _ => []

/-- The elements in the items of an array. -/
def itemElements (structs : StructLayouts) : List Value → PlacedField → List Remote
  | [], _ => []
  | v :: rest, f => v.elements structs f ++ itemElements structs rest f

/-- The elements in the entries of a dictionary, depending on their fields. -/
def entryElements (structs : StructLayouts) : Fields → Keyed (PlacedField → List Remote)
  | [] => []
  | (name, v) :: rest => (name, v.elements structs) :: entryElements structs rest

end

/-- The elements of indirect arrays in the fields of a list that are on the wire. -/
def listElements (structs : StructLayouts) (fields : List PlacedField) (values : Fields) :
    List Remote :=
  (fields.filter (·.isOnWire values)).flatMap (elementsOf (entryElements structs values))

/-- An element and those inside it. -/
def Remote.all (structs : StructLayouts) (r : Remote) : List Remote :=
  r :: listElements structs r.layout.members r.members

section Elements

variable {structs : StructLayouts} {f : PlacedField} {values : Fields} {v : Value}

@[simp] theorem itemElements_eq_flatMap (items : List Value) :
    itemElements structs items f = items.flatMap (·.elements structs f) := by
  induction items with
  | nil => rfl
  | cons v rest ih => rw [itemElements, ih, List.flatMap_cons]

@[simp] theorem find?_entryElements (name : String) :
    (entryElements structs values).find? name =
      (values.find? name).map (Value.elements structs) := by
  induction values with
  | nil => rfl
  | cons e rest ih =>
    obtain ⟨key, v⟩ := e
    rw [entryElements, Keyed.find?, Keyed.find?]
    split
    · rfl
    · exact ih

theorem elements_array (items : List Value) :
    (Value.array items).elements structs f = items.flatMap (·.elements structs f) := by
  rw [Value.elements, itemElements_eq_flatMap]

section Struct

variable {t : String} {layout : StructLayout} (htype : f.structType? = some t)
  (hlayout : structs t = some layout) (members : Fields)

include htype hlayout

/-- A struct in place holds the elements of its members. -/
theorem elements_direct (hdirect : f.isIndirect = false) :
    (Value.struct members).elements structs f = listElements structs layout.members members := by
  rw [Value.elements, htype, Option.bind_some, hlayout]
  simp [hdirect, listElements]

/-- A struct that a slot is for is an element. -/
theorem elements_indirect (hindirect : f.isIndirect = true) :
    (Value.struct members).elements structs f = Remote.all structs ⟨layout, members⟩ := by
  rw [Value.elements, htype, Option.bind_some, hlayout]
  simp [hindirect, listElements, Remote.all]

end Struct

/-- A field that is absent has no elements, whatever its value. -/
theorem listElements_cons_of_absent (h : Prerequisite.allHold f.prerequisites values = .ok false)
    (rest : List PlacedField) :
    listElements structs (f :: rest) values = listElements structs rest values := by
  rw [listElements, List.filter_cons, f.isOnWire_of_allHold h]
  rfl

/-- A field that is there has the elements of its value. -/
theorem listElements_cons_of_present (h : Prerequisite.allHold f.prerequisites values = .ok true)
    (hv : values.find? f.name = some v) (rest : List PlacedField) :
    listElements structs (f :: rest) values =
      v.elements structs f ++ listElements structs rest values := by
  have hfirst : elementsOf (entryElements structs values) f = v.elements structs f := by
    rw [elementsOf, find?_entryElements, hv]
    rfl
  rw [listElements, List.filter_cons, f.isOnWire_of_allHold h, if_pos rfl, List.flatMap_cons,
    hfirst]
  rfl

/-- A value without parts has no elements. -/
theorem elements_of_encode {e : Element} {order : ByteOrder} {field : String}
    {lengthFormat : IntFormat} {bytes : List UInt8}
    (h : e.encode order field lengthFormat v = .ok bytes) : v.elements structs f = [] := by
  cases v with
  | struct | array => cases e <;> cases h
  | int | uuid | string | ipv4 | ipv6 => rfl

end Elements

/-! ## Computations that end -/

/-- The computation does not fail because structs nest too deep, and what it comes to is as told. -/
structure Ends {α : Type} (x : Except CodecError α) (gives : α → Prop) : Prop where
  shallow : IsShallow x
  ok : ∀ a, x = .ok a → gives a

section Ends

variable {α β : Type} {x : Except CodecError α} {gives gives' : α → Prop}

theorem ends_ok {a : α} (h : gives a) : Ends (.ok a) gives where
  shallow := isShallow_ok a
  ok := by
    rintro _ ⟨⟩
    exact h

theorem ends_error {e : CodecError} (h : ¬ e.IsNesting) : Ends (.error e) gives where
  shallow := isShallow_error h
  ok := by
    rintro _ ⟨⟩

theorem IsShallow.ends (h : IsShallow x) : Ends x fun a => x = .ok a := ⟨h, fun _ => id⟩

theorem Ends.mono (h : Ends x gives) (hgives : ∀ a, gives a → gives' a) : Ends x gives' :=
  ⟨h.shallow, fun a ha => hgives a (h.ok a ha)⟩

theorem Ends.bind {f : α → Except CodecError β} {gives' : β → Prop} (h : Ends x gives)
    (hf : ∀ a, gives a → Ends (f a) gives') : Ends (x >>= f) gives' where
  shallow := h.shallow.bind fun a ha => (hf a (h.ok a ha)).shallow
  ok b hb := by
    obtain ⟨a, ha, hb⟩ := bind_eq_ok.1 hb
    exact (hf a (h.ok a ha)).ok b hb

theorem isShallow_mapM {f : α → Except CodecError β} (hf : ∀ a, IsShallow (f a)) (xs : List α) :
    IsShallow (xs.mapM f) := by
  intro h
  obtain ⟨a, -, ha⟩ := exists_of_mapM_eq_error h
  exact hf a ha

end Ends

/-! ## What slots lead to -/

namespace Codec

variable {c : Codec} {depth bound : Nat} {f : PlacedField}

/-- The slots of pieces lead to these elements, with those inside, and structs nest no deeper in
them than the encoder goes there, which is less deep than a bound. -/
structure Leads (c : Codec) (bound : Nat) (rs : List Remote) (pieces : List Piece) : Prop where
  elements : (Piece.pointees pieces).flatMap (·.remote.all c.plan.struct?) = rs
  nests : ∀ p ∈ Piece.pointees pieces, p.depth < bound ∧ c.Nests p.depth p.layout

section Leads

variable {rs rs' : List Remote} {xs ys : List Piece}

theorem leads_ofBytes (bytes : List UInt8) : Leads c bound [] (Piece.ofBytes bytes) where
  elements := by rw [Piece.pointees_ofBytes, List.flatMap_nil]
  nests p hp := by
    rw [Piece.pointees_ofBytes] at hp
    cases hp

theorem Leads.append (h : Leads c bound rs xs) (h' : Leads c bound rs' ys) :
    Leads c bound (rs ++ rs') (xs ++ ys) where
  elements := by rw [Piece.pointees_append, List.flatMap_append, h.elements, h'.elements]
  nests := by
    rw [Piece.pointees_append]
    exact List.forall_mem_append.2 ⟨h.nests, h'.nests⟩

theorem Leads.mono {bound' : Nat} (h : Leads c bound rs xs) (hle : bound ≤ bound') :
    Leads c bound' rs xs :=
  ⟨h.elements, fun p hp => (h.nests p hp).imp_left (Nat.lt_of_lt_of_le · hle)⟩

end Leads

/-! ## Values -/

theorem isShallow_encodeElement (e : Element) (order : ByteOrder) (field : String)
    (lengthFormat : IntFormat) (v : Value) :
    IsShallow (e.encode order field lengthFormat v) := by
  unfold Element.encode
  split
  · split
    · exact isShallow_ok _
    · exact isShallow_error id
  · exact isShallow_ok _
  · exact isShallow_ok _
  · exact isShallow_ok _
  · dsimp only
    split
    · exact isShallow_ok _
    · exact isShallow_error id
  · exact isShallow_error id

theorem isShallow_requireCount (items : Nat) (siblings : Fields) :
    IsShallow (requireCount f items siblings) := by
  refine (plain_countOf f siblings).isShallow.bind fun count _ => ?_
  split
  · exact isShallow_ok _
  · exact isShallow_error id

theorem isShallow_encodeSlot (field : String) (layout : StructLayout) (item : Value) :
    IsShallow (encodeSlot field layout depth item) := by
  unfold encodeSlot
  split
  · exact isShallow_error id
  · exact isShallow_ok _

section Value

variable {t : String} {layout : StructLayout} (htype : f.structType? = some t)
  (hlayout : c.plan.struct? t = some layout)

include htype hlayout

/-- The slots of an indirect array lead to its items. -/
theorem ends_slots (hnests : c.Nests depth layout) (hindirect : f.isIndirect = true)
    (items : List Value) :
    Ends (items.mapM (encodeSlot f.name layout depth))
      (Leads c (depth + 1) (items.flatMap (·.elements c.plan.struct? f))) where
  shallow := isShallow_mapM (isShallow_encodeSlot f.name layout) items
  ok pieces hpieces := by
    obtain ⟨structs, rfl, rfl⟩ := mapM_encodeSlot hpieces
    constructor
    · rw [pointees_slots, List.flatMap_map, List.flatMap_map]
      simp only [elements_indirect htype hlayout _ hindirect, Pointee.remote]
    · rw [pointees_slots]
      intro p hp
      obtain ⟨members, -, rfl⟩ := List.mem_map.1 hp
      exact ⟨Nat.lt_succ_self depth, hnests⟩

/-- The slots of structs in place lead to the elements in them. -/
theorem ends_encodeStructs {inner : StructEncoder} (hdirect : f.isIndirect = false)
    (hinner : ∀ members start, Ends (inner layout members start)
      (Leads c bound (listElements c.plan.struct? layout.members members)))
    (start : Nat) (items : List Value) :
    Ends (encodeStructs inner f.name layout start items)
      (Leads c bound (items.flatMap (·.elements c.plan.struct? f))) := by
  induction items generalizing start with
  | nil => exact ends_ok (leads_ofBytes [])
  | cons item rest ih =>
    unfold encodeStructs
    split
    · exact ends_error id
    · next members hmembers =>
      cases fields?_eq_some.1 hmembers
      rw [List.flatMap_cons, elements_direct htype hlayout members hdirect]
      refine (hinner members start).bind fun pieces hpieces => ?_
      exact (ih _).bind fun others hothers => ends_ok (hpieces.append hothers)

end Value

section Fields

variable {inner : StructEncoder}

/-- Structs nest no deeper in the struct than the encoder goes, and the slots in it lead to its
elements. -/
def Led (c : Codec) (depth : Nat) (inner : StructEncoder) (layout : StructLayout) : Prop :=
  c.Nests depth layout ∧ ∀ members start, Ends (inner layout members start)
    (Leads c depth (listElements c.plan.struct? layout.members members))

/-- The slots of an array lead to the elements in its items. -/
theorem ends_encodeItems (harray : f.format.isArray = true)
    (hinner : ∀ layout, c.structOf f = .ok layout → Led c depth inner layout) (start : Nat)
    (items : List Value) :
    Ends (encodeItems c inner depth f start items)
      (Leads c (depth + 1) (items.flatMap (·.elements c.plan.struct? f))) := by
  rcases format_of_isArray harray with ⟨e, hformat⟩ | hformat | hformat
  · rw [encodeItems, hformat]
    dsimp only
    refine (isShallow_mapM (isShallow_encodeElement e _ _ _) items).ends.bind fun parts hparts => ?_
    have hnone : items.flatMap (·.elements c.plan.struct? f) = [] := by
      refine List.flatMap_eq_nil_iff.2 fun v hv => ?_
      obtain ⟨bytes, -, hbytes⟩ := exists_of_mem_left (mapM_eq_ok.1 hparts) hv
      exact elements_of_encode hbytes
    rw [hnone]
    exact ends_ok (leads_ofBytes _)
  · have hdirect : f.isIndirect = false := by simp [PlacedField.isIndirect, hformat]
    rw [encodeItems, hformat]
    refine (isShallow_structOf f).ends.bind fun layout hlayout => ?_
    obtain ⟨t, htype, ht⟩ := structOf_eq_ok.1 hlayout
    exact (ends_encodeStructs htype ht hdirect (hinner layout hlayout).2 start items).mono
      fun _ h => h.mono (Nat.le_succ depth)
  · have hindirect : f.isIndirect = true := by simp [PlacedField.isIndirect, hformat]
    rw [encodeItems, hformat]
    refine (isShallow_structOf f).ends.bind fun layout hlayout => ?_
    obtain ⟨t, htype, ht⟩ := structOf_eq_ok.1 hlayout
    exact ends_slots htype ht (hinner layout hlayout).1 hindirect items

/-- The slots of a value lead to the elements in it. -/
theorem ends_encodeValue
    (hinner : ∀ layout, c.structOf f = .ok layout → Led c depth inner layout) (siblings : Fields)
    (start : Nat) (v : Value) :
    Ends (encodeValue c inner depth f siblings start v)
      (Leads c (depth + 1) (v.elements c.plan.struct? f)) := by
  cases hscalar : f.format.scalar? with
  | some e =>
    rw [encodeValue, hscalar]
    refine (isShallow_encodeElement e _ _ _ v).ends.bind fun bytes hbytes => ?_
    rw [elements_of_encode hbytes]
    exact ends_ok (leads_ofBytes bytes)
  | none =>
    cases harray : f.format.isArray with
    | true =>
      rw [encodeValue, hscalar]
      dsimp only
      rw [if_pos harray]
      split
      · exact ends_error id
      · next items hitems =>
        cases items?_eq_some.1 hitems
        rw [elements_array]
        refine (isShallow_requireCount items.length siblings).ends.bind fun _ _ => ?_
        exact ends_encodeItems harray hinner start items
    | false =>
      have hdirect : f.isIndirect = false := by
        rcases format_of_single hscalar harray with heq | heq <;>
          simp [PlacedField.isIndirect, heq]
      rw [encodeValue, hscalar]
      dsimp only
      rw [if_neg (by simp [harray])]
      split
      · exact ends_error id
      · next members hmembers =>
        cases fields?_eq_some.1 hmembers
        refine (isShallow_structOf f).ends.bind fun layout hlayout => ?_
        obtain ⟨t, htype, ht⟩ := structOf_eq_ok.1 hlayout
        rw [elements_direct htype ht members hdirect]
        exact ((hinner layout hlayout).2 members start).mono fun _ h => h.mono (Nat.le_succ depth)

theorem isShallow_encodeHeader (bytes : Nat) : IsShallow (encodeHeader c f bytes) := by
  unfold encodeHeader
  split
  · exact isShallow_ok _
  · split
    · exact isShallow_ok _
    · exact isShallow_error id

theorem isShallow_checkPlace (field : String) (expected : Option Nat) (actual : Nat) :
    IsShallow (checkPlace field expected actual) := by
  unfold checkPlace
  split
  · exact isShallow_ok _
  · exact isShallow_error id

/-- **The slots of a list of fields lead to the elements in it.** -/
theorem ends_encodeFields {fields : List PlacedField}
    (hinner : ∀ layout, c.Enters fields layout → Led c depth inner layout) (values : Fields)
    (base : Nat) (endOffset : Offset) (place : Nat) (known : Known) :
    Ends (encodeFields c inner depth values base endOffset place known fields)
      (Leads c (depth + 1) (listElements c.plan.struct? fields values)) := by
  induction fields generalizing place known with
  | nil =>
    rw [encodeFields]
    exact (isShallow_checkPlace _ _ _).ends.bind fun _ _ => ends_ok (leads_ofBytes [])
  | cons f rest ih =>
    have hrest := ih fun layout hlayout => hinner layout hlayout.tail
    rw [encodeFields]
    refine (Prerequisite.plain_allHold _ _).isShallow.ends.bind fun present hpresent => ?_
    cases present with
    | false =>
      rw [listElements_cons_of_absent hpresent]
      exact hrest _ _
    | true =>
      dsimp only
      rw [if_pos rfl]
      split
      · exact ends_error id
      · next value hvalue =>
        rw [listElements_cons_of_present hpresent hvalue]
        refine (isShallow_checkPlace _ _ _).ends.bind fun _ _ => ?_
        refine (ends_encodeValue (fun layout hlayout => hinner layout (enters_head hlayout))
          values _ value).bind fun pieces hpieces => ?_
        refine (isShallow_encodeHeader _).ends.bind fun header _ => ?_
        refine (hrest _ _).bind fun others hothers => ends_ok ?_
        exact ((leads_ofBytes header).append hpieces).append hothers

end Fields

/-- **The slots of a struct lead to the elements in it**, where the encoder goes as deep as structs
nest. -/
theorem Nests.led {layout : StructLayout} (h : c.Nests depth layout) :
    Led c depth (encodeStruct c depth) layout := by
  induction h with
  | intro inside ih =>
    exact ⟨.intro inside, fun members start => ends_encodeFields ih members _ _ _ _⟩

/-! ## Levels -/

/-- Elements are encoded to slots whose elements nest less deep. -/
theorem ends_encodePointees {ps : List Pointee}
    (hps : ∀ p ∈ ps, p.depth < bound + 1 ∧ c.Nests p.depth p.layout) (start : Nat) :
    Ends (encodePointees c start ps) fun found =>
      ∀ p ∈ Piece.pointees found.2, p.depth < bound ∧ c.Nests p.depth p.layout := by
  induction ps generalizing start with
  | nil => exact ends_ok fun _ hp => absurd hp List.not_mem_nil
  | cons p ps ih =>
    obtain ⟨⟨hdepth, hnests⟩, hrest⟩ := List.forall_mem_cons.1 hps
    unfold encodePointees
    split
    · refine (hnests.led.2 p.values start).bind fun pieces hpieces => ?_
      refine (ih hrest _).bind fun found hfound => ends_ok ?_
      dsimp only
      rw [Piece.pointees_append]
      exact List.forall_mem_append.2
        ⟨(hpieces.mono (Nat.le_of_lt_succ hdepth)).nests, hfound⟩
    · exact ends_error id

/-- There are as many levels as elements nest deep. -/
theorem isShallow_encodeLevels {levels : Nat} {ps : List Pointee}
    (hps : ∀ p ∈ ps, p.depth < levels + 1 ∧ c.Nests p.depth p.layout) (start : Nat) :
    IsShallow (encodeLevels c levels start ps) := by
  induction levels generalizing ps start with
  | zero =>
    cases ps with
    | nil => exact isShallow_ok _
    | cons p ps =>
      obtain ⟨hdepth, hnests⟩ := hps p (.head _)
      rw [Nat.lt_one_iff.1 hdepth] at hnests
      cases hnests
  | succ levels ih =>
    cases ps with
    | nil => exact isShallow_ok _
    | cons p ps =>
      have hfirst := ends_encodePointees hps start
      refine hfirst.shallow.bind fun found hfound => ?_
      exact (ih (hfirst.ok found hfound) _).bind fun _ _ => isShallow_ok _

/-! ## Turns -/

/-- The structs in elements that wait nest no deeper than the encoder goes there. -/
def NestsAll (c : Codec) (waiting : List (Nat × Pointee)) : Prop :=
  ∀ s ∈ waiting, c.Nests s.2.depth s.2.layout

/-- The elements that are still to come, with those inside. -/
def remaining (c : Codec) (waiting : List (Nat × Pointee)) : List Remote :=
  waiting.flatMap fun s => s.2.remote.all c.plan.struct?

/-- The slots of pieces wait for what they lead to. -/
theorem Leads.remaining_slots {rs : List Remote} {pieces : List Piece}
    (h : Leads c bound rs pieces) (start : Nat) :
    remaining c (Piece.slots start pieces) = rs := by
  rw [← h.elements, ← Piece.map_slots start, List.flatMap_map]
  rfl

theorem Leads.nestsAll_slots {rs : List Remote} {pieces : List Piece}
    (h : Leads c bound rs pieces) (start : Nat) : NestsAll c (Piece.slots start pieces) := by
  intro s hs
  refine (h.nests s.2 ?_).2
  rw [← Piece.map_slots start]
  exact List.mem_map_of_mem hs

variable {before after : Output} {tail : List Placement}

/-- **A turn leaves one element less**, which is the one that it puts in its place. -/
theorem Turn.remaining_perm {p : Placement} (h : Turn c before p after)
    (hnests : NestsAll c before.waiting) : NestsAll c after.waiting ∧
      (remaining c before.waiting).Perm (p.element.remote :: remaining c after.waiting) := by
  cases h with
  | @intro bytes slot element waiting pieces hplace hpieces =>
    obtain ⟨helement, hwaiting⟩ := List.forall_mem_cons.1 hnests
    have hleads := (helement.led.2 element.values bytes.length).ok pieces hpieces
    refine ⟨List.forall_mem_append.2 ⟨hwaiting, hleads.nestsAll_slots _⟩, ?_⟩
    have hafter : remaining c (waiting ++ Piece.slots bytes.length pieces) = remaining c waiting ++
        listElements c.plan.struct? element.layout.members element.values := by
      rw [← hleads.remaining_slots bytes.length]
      exact List.flatMap_append
    dsimp only
    rw [hafter]
    exact List.perm_append_comm.cons element.remote

/-- **A run leaves so many elements less as it has turns**, and they are those that it puts in their
places. -/
theorem Run.remaining_perm (h : Run c before tail after) (hnests : NestsAll c before.waiting) :
    (remaining c before.waiting).Perm
      (tail.map (·.element.remote) ++ remaining c after.waiting) := by
  induction h with
  | done => exact .refl _
  | turn hturn _ ih =>
    obtain ⟨hnests, hperm⟩ := hturn.remaining_perm hnests
    exact hperm.trans ((ih hnests).cons _)

/-! ## Containers -/

/-- The queue starts behind the inline bytes of a container, with all their slots waiting. -/
def Starts (c : Codec) (container : ContainerLayout) (values : Fields) (out : Output) : Prop :=
  ∃ inline, encodeFields c (encodeStruct c c.nesting) c.nesting values 0 container.endOffset 0
      .nothing container.fields = .ok inline ∧
    out = ⟨Piece.fill c.order [] inline, Piece.slots 0 inline⟩

/-- Encoding comes to an end, whatever the values, with one turn of the queue for each element. -/
structure Drains (c : Codec) (container : ContainerLayout) (values : Fields) : Prop where
  /-- The encoder never has to go deeper into structs, nor through more levels of elements, than the
  plan has structs. -/
  shallow : c.encode container values ≠ .error .nestingTooDeep
  /-- As long as the queue runs, the elements in the values are those that have had their turn and
  those that are still to come. -/
  turns : ∀ start tail after, c.Starts container values start → Run c start tail after →
    (listElements c.plan.struct? container.fields values).Perm
      (tail.map (·.element.remote) ++ remaining c after.waiting)
  /-- So it has no more turns than there are elements. -/
  bounded : ∀ start tail after, c.Starts container values start → Run c start tail after →
    tail.length ≤ (listElements c.plan.struct? container.fields values).length
  /-- Without an error it runs until every element has had its turn, and none of them twice. -/
  finished : ∀ bytes, c.encode container values = .ok bytes → ∃ start tail,
    c.Starts container values start ∧ Run c start tail ⟨bytes, []⟩ ∧
      (tail.map (·.element.remote)).Perm (listElements c.plan.struct? container.fields values)

section Container

variable (hnests : ∀ fields layout, c.Enters fields layout → c.Nests c.nesting layout)
  (container : ContainerLayout) (values : Fields)

include hnests

/-- The slots in the inline bytes of a container lead to the elements in its values. -/
theorem ends_inline :
    Ends (encodeFields c (encodeStruct c c.nesting) c.nesting values 0 container.endOffset 0
        .nothing container.fields)
      (Leads c (c.nesting + 1) (listElements c.plan.struct? container.fields values)) :=
  ends_encodeFields (fun layout h => (hnests _ layout h).led) values _ _ _ _

theorem isShallow_encode : IsShallow (c.encode container values) := by
  have hinline := ends_inline hnests container values
  refine hinline.shallow.bind fun inline h => ?_
  exact (isShallow_encodeLevels (hinline.ok inline h).nests _).bind fun _ _ => isShallow_ok _

/-- **Encoding comes to an end** where structs nest no deeper than the plan has structs. -/
theorem drains_of_nests : c.Drains container values := by
  have hturns : ∀ start tail after, c.Starts container values start → Run c start tail after →
      (listElements c.plan.struct? container.fields values).Perm
        (tail.map (·.element.remote) ++ remaining c after.waiting) := by
    rintro start tail after ⟨inline, hinline, rfl⟩ hrun
    have hleads := (ends_inline hnests container values).ok inline hinline
    rw [← hleads.remaining_slots 0]
    exact hrun.remaining_perm (hleads.nestsAll_slots 0)
  refine ⟨isShallow_encode hnests container values, hturns, ?_, ?_⟩
  · intro start tail after hstart hrun
    rw [(hturns start tail after hstart hrun).length_eq, List.length_append, List.length_map]
    exact Nat.le_add_right _ _
  · intro bytes h
    obtain ⟨inline, tail, hinline, hrun⟩ := exists_run_of_encode h
    have hstart : c.Starts container values _ := ⟨inline, hinline, rfl⟩
    have hperm := hturns _ tail _ hstart hrun
    rw [remaining, List.flatMap_nil, List.append_nil] at hperm
    exact ⟨_, tail, hstart, hrun, hperm.symm⟩

end Container

/-- **The recursions of a codec end, whatever they are given.** In every plan of a source, under
either byte order, reading goes from structs into structs by what the plan says of them and no
deeper than the plan has structs, wherever slots in the bytes point; there is one way to read so,
and it is what the decoder does. Encoding any values goes no deeper either, and the queue of their
elements, which grows while it is drained, has a turn for each element and no other. -/
theorem terminates {source : String} {options : Options} {plan : Plan}
    (hplan : Plan.ofSource source options = .ok plan) (order : ByteOrder)
    (container : ContainerLayout) :
    Founded ⟨plan, order⟩ container ∧ ∀ values, Drains ⟨plan, order⟩ container values := by
  have hnests := nests_of_enters hplan order
  exact ⟨founded_of_nests hnests container, drains_of_nests hnests container⟩

end Codec

/-- Bytes in which the slot of a tree points at itself, and that of its leaf at the first byte. -/
def knottedBytes : List UInt8 := [1, 1, 0, 0, 0, 0]

/-- A tree that stands in its own slot is read to its leaf, and nothing nests deeper. To encode two
trees with three leaves takes five turns. -/
theorem terminates_forest :
    (Codec.decode ⟨forestPlan, .little⟩ forestContainer knottedBytes =
        .ok ([("count", .ofNat .u8 1), ("trees", .array [treeValue [1]])], 6) ∧
      ∀ stack, Codec.Stack ⟨forestPlan, .little⟩ forestContainer.fields stack →
        stack.length ≤ 2) ∧
    ∃ start tail, Codec.Starts ⟨forestPlan, .little⟩ forestContainer forestValues start ∧
      Codec.Run ⟨forestPlan, .little⟩ start tail ⟨forestBytes, []⟩ ∧ tail.length = 5 := by
  obtain ⟨hfounded, hdrains⟩ := Codec.terminates forestPlan_eq .little forestContainer
  refine ⟨⟨toOption_eq_some.1 (by decide +kernel), hfounded.stack⟩, ?_⟩
  have hencoded : Codec.encode ⟨forestPlan, .little⟩ forestContainer forestValues =
      .ok forestBytes := toOption_eq_some.1 (by decide +kernel)
  obtain ⟨start, tail, hstart, hrun, hperm⟩ := (hdrains forestValues).finished _ hencoded
  refine ⟨start, tail, hstart, hrun, ?_⟩
  have hcount : (listElements forestPlan.struct? forestContainer.fields forestValues).length = 5 :=
    by decide +kernel
  rw [← hcount, ← hperm.length_eq, List.length_map]

end WirePlan
