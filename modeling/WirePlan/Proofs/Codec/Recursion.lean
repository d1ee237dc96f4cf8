import WirePlan.Proofs.Codec.Failure
import WirePlan.Proofs.Plan.Depth

/-!
# The recursion of the decoder

The decoder goes into structs, inline ones and those that slots point at, wherever the bytes say
that they are. Neither the place nor the bytes left tell that this ends, as slots may point back, at
themselves or at each other. The plan tells it: reading a list of fields asks for nothing but the
structs that its fields name (`Codec.decodeFields_congr`), and in a plan no struct comes to itself
in this way (`Codec.wellFounded_enters`), so that never more structs are entered one inside the
other than the plan has (`Codec.length_stack_le`).

The depth that the decoder is given is therefore no part of what it computes. The recursion that
minds no depth (`Codec.Unbounded`) has exactly one solution (`Codec.Unbounded.unique`), and reading
a container is reading its fields by it, whatever the bytes are (`Codec.read_eq`). That structs nest
too deep is never the outcome (`Codec.isShallow_decode`).
-/

namespace WirePlan

/-- Structs nest too deep. -/
def CodecError.IsNesting : CodecError → Prop
  | .nestingTooDeep => True
  | _ => False

/-- The computation does not fail because structs nest too deep. -/
def IsShallow {α : Type} (x : Except CodecError α) : Prop := x ≠ .error .nestingTooDeep

section IsShallow

variable {α β : Type} {x : Except CodecError α}

theorem isShallow_ok (a : α) : IsShallow (.ok a : Except CodecError α) := by
  rintro ⟨⟩

theorem isShallow_error {e : CodecError} (h : ¬ e.IsNesting) :
    IsShallow (.error e : Except CodecError α) := by
  rintro ⟨⟩
  exact h trivial

theorem IsShallow.bind {f : α → Except CodecError β} (hx : IsShallow x)
    (hf : ∀ a, x = .ok a → IsShallow (f a)) : IsShallow (x >>= f) := by
  intro h
  rcases bind_eq_error.1 h with h | ⟨a, ha, h⟩
  · exact hx h
  · exact hf a ha h

theorem Plain.isShallow (h : Plain x) : IsShallow x := fun he => h _ he trivial

end IsShallow

namespace Codec

variable {c : Codec} {data : Array UInt8}

theorem isShallow_structOf (f : PlacedField) : IsShallow (c.structOf f) := by
  unfold structOf
  split
  · exact isShallow_error id
  · split
    · exact isShallow_ok _
    · exact isShallow_error id

/-! ## What a list of fields asks for -/

/-- A field of the list names the struct. -/
def Enters (c : Codec) (fields : List PlacedField) (layout : StructLayout) : Prop :=
  ∃ f ∈ fields, c.structOf f = .ok layout

section Enters

variable {f : PlacedField} {rest : List PlacedField} {layout : StructLayout}

theorem enters_head (h : c.structOf f = .ok layout) : c.Enters (f :: rest) layout :=
  ⟨f, .head _, h⟩

theorem Enters.tail (h : c.Enters rest layout) : c.Enters (f :: rest) layout := by
  obtain ⟨g, hg, hlayout⟩ := h
  exact ⟨g, .tail _ hg, hlayout⟩

end Enters

section Congr

variable {inner inner' : StructDecoder}

section Struct

variable {layout : StructLayout} (h : inner layout = inner' layout)

include h

theorem decodeInline_congr (cur : Cursor) :
    decodeInline inner layout cur = decodeInline inner' layout cur := by
  rw [decodeInline, decodeInline, h]

theorem decodeStructs_congr (count : Nat) (cur : Cursor) (done : List Value) :
    decodeStructs inner layout count cur done = decodeStructs inner' layout count cur done := by
  induction count generalizing cur done with
  | zero => rfl
  | succ count ih => simp only [decodeStructs, decodeInline_congr h, ih]

theorem decodePointees_congr (places : List Nat) (cur : Cursor) (done : List Value) :
    decodePointees inner layout places cur done = decodePointees inner' layout places cur done := by
  induction places generalizing cur done with
  | nil => rfl
  | cons place places ih => simp only [decodePointees, h, ih]

end Struct

/-- The value of a field is decoded by the struct that the field names, if by any. -/
theorem decodeValue_congr {f : PlacedField}
    (h : ∀ layout, c.structOf f = .ok layout → inner layout = inner' layout) (seen : Fields)
    (cur : Cursor) :
    decodeValue c data inner f seen cur = decodeValue c data inner' f seen cur := by
  have hitems : ∀ count, decodeItems c data inner f count cur =
      decodeItems c data inner' f count cur := by
    intro count
    unfold decodeItems
    split
    · rfl
    · exact bind_congr_ok fun layout hlayout => decodeStructs_congr (h layout hlayout) count cur []
    · refine bind_congr_ok fun layout hlayout => ?_
      simp only [decodePointees_congr (h layout hlayout)]
  unfold decodeValue
  split
  · rfl
  · split
    · simp only [hitems]
    · exact bind_congr_ok fun layout hlayout => decodeInline_congr (h layout hlayout) cur

/-- **A list of fields asks for the structs that its fields name**, and for no others. -/
theorem decodeFields_congr {fields : List PlacedField}
    (h : ∀ layout, c.Enters fields layout → inner layout = inner' layout) (base : Nat)
    (endOffset : Offset) (seen : Fields) (known : Known) (cur : Cursor) :
    decodeFields c data inner base endOffset seen known cur fields =
      decodeFields c data inner' base endOffset seen known cur fields := by
  induction fields generalizing seen known cur with
  | nil => rfl
  | cons f rest ih =>
    have hvalue : ∀ seen cur, decodeValue c data inner f seen cur =
        decodeValue c data inner' f seen cur :=
      decodeValue_congr fun layout hlayout => h layout (enters_head hlayout)
    have hrest := ih fun layout hlayout => h layout hlayout.tail
    simp only [decodeFields, hvalue, hrest]

end Congr

/-! ## How a list of fields fails -/

section Shallow

variable {inner : StructDecoder}

section Struct

variable {layout : StructLayout} (h : ∀ start cur, IsShallow (inner layout start cur))

include h

theorem isShallow_decodeInline (cur : Cursor) : IsShallow (decodeInline inner layout cur) :=
  (h _ _).bind fun _ _ => isShallow_ok _

theorem isShallow_decodeStructs (count : Nat) (cur : Cursor) (done : List Value) :
    IsShallow (decodeStructs inner layout count cur done) := by
  induction count generalizing cur done with
  | zero => exact isShallow_ok _
  | succ count ih =>
    rw [decodeStructs]
    split
    · exact ih _ _
    · next e he =>
      rintro ⟨⟩
      exact isShallow_decodeInline h cur he

theorem isShallow_decodePointees (places : List Nat) (cur : Cursor) (done : List Value) :
    IsShallow (decodePointees inner layout places cur done) := by
  induction places generalizing cur done with
  | nil => exact isShallow_ok _
  | cons place places ih =>
    rw [decodePointees]
    split
    · exact ih _ _
    · next e he =>
      rintro ⟨⟩
      exact h place cur he

end Struct

theorem isShallow_decodeValue {f : PlacedField}
    (h : ∀ layout, c.structOf f = .ok layout → ∀ start cur, IsShallow (inner layout start cur))
    (seen : Fields) (cur : Cursor) : IsShallow (decodeValue c data inner f seen cur) := by
  have hitems : ∀ count, IsShallow (decodeItems c data inner f count cur) := by
    intro count
    unfold decodeItems
    split
    · next e _ => exact (Element.plain_decodeMany e count cur []).isShallow
    · exact (isShallow_structOf f).bind fun layout hlayout =>
        isShallow_decodeStructs (h layout hlayout) count cur []
    · refine (isShallow_structOf f).bind fun layout hlayout => ?_
      refine (plain_readSlots _ _ _).isShallow.bind fun found _ => ?_
      exact (isShallow_decodePointees (h layout hlayout) _ _ _).bind fun _ _ => isShallow_ok _
  unfold decodeValue
  split
  · next e _ => exact (Element.plain_decode e cur).isShallow
  · split
    · refine (plain_countOf f seen).isShallow.bind fun count _ => ?_
      exact (hitems count).bind fun _ _ => isShallow_ok _
    · exact (isShallow_structOf f).bind fun layout hlayout =>
        isShallow_decodeInline (h layout hlayout) cur

/-- A list of fields nests too deep only where a struct that its fields name does. -/
theorem isShallow_decodeFields {fields : List PlacedField}
    (h : ∀ layout, c.Enters fields layout → ∀ start cur, IsShallow (inner layout start cur))
    (base : Nat) (endOffset : Offset) (seen : Fields) (known : Known) (cur : Cursor) :
    IsShallow (decodeFields c data inner base endOffset seen known cur fields) := by
  induction fields generalizing seen known cur with
  | nil =>
    rw [decodeFields]
    split
    · exact isShallow_error id
    · exact isShallow_ok _
  | cons f rest ih =>
    have hrest := ih fun layout hlayout => h layout hlayout.tail
    rw [decodeFields]
    refine (Prerequisite.plain_allHold _ _).isShallow.bind fun present _ => ?_
    split
    · split
      · exact isShallow_error id
      · refine (plain_decodeHeader f _).isShallow.bind fun declared? _ => ?_
        refine (isShallow_decodeValue (fun layout hlayout => h layout (enters_head hlayout))
          seen _).bind fun found _ => ?_
        exact (plain_checkHeaderLength f _ _).isShallow.bind fun _ _ => hrest _ _ _
    · exact hrest _ _ _

end Shallow

/-! ## Structs inside structs -/

/-- Structs one inside the other, the outermost of them in a list of fields. -/
def Stack (c : Codec) : (fields : List PlacedField) → List StructLayout → Prop
  | _, [] => True
  | fields, layout :: rest => c.Enters fields layout ∧ Stack c layout.members rest

/-- The struct and those inside it nest no deeper. -/
inductive Nests (c : Codec) : (depth : Nat) → StructLayout → Prop where
  | intro {depth : Nat} {layout : StructLayout}
      (inside : ∀ next, c.Enters layout.members next → Nests c depth next) :
      Nests c (depth + 1) layout

/-- How deep the names of structs lead is how deep the structs nest. -/
theorem nests_of_shallow {depth : Nat} {t : String} {layout : StructLayout}
    (hshallow : StructLayouts.Shallow c.plan.struct? depth t)
    (ht : c.plan.struct? t = some layout) : c.Nests depth layout := by
  induction depth generalizing t layout with
  | zero => cases hshallow.symm.trans ht
  | succ depth ih =>
    refine .intro fun next hnext => ?_
    obtain ⟨f, hf, hnext⟩ := hnext
    obtain ⟨u, htype, hu⟩ := structOf_eq_ok.1 hnext
    exact ih (hshallow layout ht f hf u htype) hu

/-- Never more structs are entered one inside the other than they nest deep. -/
theorem length_stack_le {depth : Nat} {fields : List PlacedField}
    (h : ∀ layout, c.Enters fields layout → c.Nests depth layout) {stack : List StructLayout}
    (hstack : c.Stack fields stack) : stack.length ≤ depth := by
  induction stack generalizing depth fields with
  | nil => exact Nat.zero_le depth
  | cons layout rest ih =>
    cases h layout hstack.1 with
    | intro inside => exact Nat.succ_le_succ (ih inside hstack.2)

namespace Nests

variable {depth : Nat} {layout : StructLayout} (h : c.Nests depth layout)

include h

/-- What nests comes to an end. -/
theorem acc : Acc (fun inner outer : StructLayout => c.Enters outer.members inner) layout := by
  induction h with
  | intro _ ih => exact .intro _ ih

/-- A decoder that goes as deep as structs nest gives the same if it may go deeper. -/
theorem decodeStruct_succ :
    decodeStruct c data (depth + 1) layout = decodeStruct c data depth layout := by
  induction h with
  | intro _ ih =>
    funext start cur
    exact decodeFields_congr ih _ _ _ _ _

/-- A decoder that goes as deep as structs nest does not find that they nest too deep. -/
theorem isShallow_decodeStruct (start : Nat) (cur : Cursor) :
    IsShallow (decodeStruct c data depth layout start cur) := by
  induction h generalizing start cur with
  | intro _ ih => exact isShallow_decodeFields ih _ _ _ _ _

end Nests

/-! ## Reading without a depth -/

/-- The recursion of the decoder with no depth to it: a struct is read as its members are, the
structs in them by the same. -/
def Unbounded (c : Codec) (data : Array UInt8) (inner : StructDecoder) : Prop :=
  ∀ layout start cur, inner layout start cur =
    decodeFields c data inner start layout.endOffset [] .nothing cur layout.members

/-- The recursion of the decoder is well founded, whatever it reads. -/
structure Founded (c : Codec) (container : ContainerLayout) : Prop where
  /-- Reading a list of fields asks for the structs that its fields name, and for no others. -/
  asks : ∀ (data : Array UInt8) (fields : List PlacedField) (inner inner' : StructDecoder),
    (∀ layout, c.Enters fields layout → inner layout = inner' layout) →
    ∀ base endOffset seen known cur,
      decodeFields c data inner base endOffset seen known cur fields =
        decodeFields c data inner' base endOffset seen known cur fields
  /-- No struct comes to itself in this way. -/
  acyclic : WellFounded fun inner outer : StructLayout => c.Enters outer.members inner
  /-- In a container never more structs are entered one inside the other than the plan has. -/
  stack : ∀ stack, c.Stack container.fields stack → stack.length ≤ c.plan.structs.length
  /-- A decoder that may go as deep never has to go deeper. -/
  shallow : ∀ bytes, c.decode container bytes ≠ .error .nestingTooDeep
  /-- It reads as the recursion with no depth does, which has a solution and no other. -/
  solution : ∀ bytes : List UInt8, ∃ inner, c.Unbounded bytes.toArray inner ∧
    (∀ other, c.Unbounded bytes.toArray other → other = inner) ∧
    c.read container bytes =
      decodeFields c bytes.toArray inner 0 container.endOffset [] .nothing {} container.fields

section Plan

variable (hnests : ∀ fields layout, c.Enters fields layout → c.Nests c.nesting layout)

include hnests

/-- **No struct comes to itself** by way of what its members name. -/
theorem wellFounded_enters :
    WellFounded fun inner outer : StructLayout => c.Enters outer.members inner :=
  ⟨fun outer => .intro outer fun inner h => (hnests _ inner h).acc⟩

/-- A decoder that goes one struct deeper than they nest solves the recursion. -/
theorem unbounded_decodeStruct (data : Array UInt8) :
    c.Unbounded data (decodeStruct c data (c.nesting + 1)) := fun _ _ _ =>
  decodeFields_congr (fun inner h => (hnests _ inner h).decodeStruct_succ.symm) _ _ _ _ _

/-- Two solutions are the same. The induction is on what is entered. -/
theorem Unbounded.unique {inner inner' : StructDecoder} (h : c.Unbounded data inner)
    (h' : c.Unbounded data inner') : inner = inner' := by
  funext layout
  induction layout using (wellFounded_enters hnests).induction with
  | _ layout ih =>
    funext start cur
    rw [h, h']
    exact decodeFields_congr ih _ _ _ _ _

/-- **Reading a container is reading its fields by the solution.** -/
theorem read_eq {container : ContainerLayout} {bytes : List UInt8} {inner : StructDecoder}
    (h : c.Unbounded bytes.toArray inner) : c.read container bytes =
      decodeFields c bytes.toArray inner 0 container.endOffset [] .nothing {} container.fields := by
  rw [h.unique hnests (unbounded_decodeStruct hnests _)]
  exact decodeFields_congr (fun inner h => (hnests _ inner h).decodeStruct_succ.symm) _ _ _ _ _

/-- **Reading never nests too deep.** -/
theorem isShallow_decode (container : ContainerLayout) (bytes : List UInt8) :
    IsShallow (c.decode container bytes) := by
  refine IsShallow.bind ?_ fun _ _ => isShallow_ok _
  exact isShallow_decodeFields (fun inner h => (hnests _ inner h).isShallow_decodeStruct) _ _ _ _ _

/-- **The recursion of the decoder is well founded** where structs nest no deeper than the plan has
structs. -/
theorem founded_of_nests (container : ContainerLayout) : c.Founded container where
  asks _ _ _ _ h := decodeFields_congr h
  acyclic := wellFounded_enters hnests
  stack _ hstack := length_stack_le (hnests container.fields) hstack
  shallow := isShallow_decode hnests container
  solution bytes := by
    have hsolution := unbounded_decodeStruct hnests bytes.toArray
    exact ⟨_, hsolution, fun _ h => h.unique hnests hsolution, read_eq hnests hsolution⟩

end Plan

/-- The structs of a plan nest no deeper than there are structs. -/
theorem nests_of_enters {source : String} {options : Options} {plan : Plan}
    (h : Plan.ofSource source options = .ok plan) (order : ByteOrder) (fields : List PlacedField)
    (layout : StructLayout) (henters : Enters ⟨plan, order⟩ fields layout) :
    Nests ⟨plan, order⟩ plan.structs.length layout := by
  obtain ⟨f, -, hlayout⟩ := henters
  obtain ⟨t, -, ht⟩ := structOf_eq_ok.1 hlayout
  exact nests_of_shallow (Plan.shallow_ofSource h t) ht

end Codec

end WirePlan
