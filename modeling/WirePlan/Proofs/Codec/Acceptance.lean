import WirePlan.Proofs.Codec.Agreement
import WirePlan.Proofs.Codec.Extent
import WirePlan.Proofs.Plan.Depth

/-!
# What the encoder accepts

Of values of the right shape (`Shaped`) the encoder asks that arrays have as many items as their
size fields tell and that strings are not longer than their length prefixes can tell (`Suits`), and
under a header that the value is not too long for it. It asks nothing else: each part of it decides
what it asks for and gives what the values take (`Decides`, `Gives`). Where it refuses, a length
does not fit or a value is missing.

That it never refuses for another reason is due to the plan. A field starts where the plan says, as
offsets are exact along the way (`Aligned`); what counts the items of an array is among the siblings
seen, or the array is refused before anything depends on it. Structs are in the plan and nest no
deeper than the encoder goes (`decides_encodeStruct`). Only beyond the 64-bit words, where no
machine comes to, places may differ from the plan (`CodecError.IsBeyond`).
-/

namespace WirePlan

/-! ## Decisions -/

namespace CodecError

/-- A length does not fit, or a value is missing. -/
def IsRefusal : CodecError → Prop
  | .lengthMismatch _ | .missingValue _ => True
  | _ => False

/-- The encoder has come to a place that is no 64-bit word. -/
def IsBeyond (e : CodecError) : Prop :=
  ∃ field expected actual, e = .layoutMismatch field expected actual ∧ UInt64.size ≤ actual

end CodecError

/-- The computation succeeds where it accepts, with what it is to give, and otherwise refuses. -/
structure Decides {α : Type} (x : Except CodecError α) (accepts : Prop) (gives : α → Prop) :
    Prop where
  ok : ∀ a, x = .ok a → accepts ∧ gives a
  error : ∀ e, x = .error e → ¬ accepts ∧ e.IsRefusal ∨ e.IsBeyond

section Decides

variable {α β : Type} {x : Except CodecError α} {accepts accepts' : Prop} {gives gives' : α → Prop}

theorem decides_ok {a : α} (haccepts : accepts) (hgives : gives a) :
    Decides (.ok a) accepts gives where
  ok := by
    rintro _ ⟨⟩
    exact ⟨haccepts, hgives⟩
  error := by
    rintro _ ⟨⟩

theorem decides_error {e : CodecError} (haccepts : ¬ accepts) (he : e.IsRefusal) :
    Decides (.error e) accepts gives where
  ok := by
    rintro _ ⟨⟩
  error := by
    rintro _ ⟨⟩
    exact .inl ⟨haccepts, he⟩

theorem Decides.mono (h : Decides x accepts gives) (haccepts : accepts' ↔ accepts)
    (hgives : ∀ a, gives a → gives' a) : Decides x accepts' gives' where
  ok a ha := (h.ok a ha).imp haccepts.2 (hgives a)
  error e he := (h.error e he).imp_left (And.imp_left (mt haccepts.1))

theorem Decides.bind (h : Decides x accepts gives) {f : α → Except CodecError β}
    {gives' : β → Prop} (hf : ∀ a, x = .ok a → gives a → Decides (f a) accepts' gives') :
    Decides (x >>= f) (accepts ∧ accepts') gives' where
  ok b hb := by
    obtain ⟨a, ha, hb⟩ := bind_eq_ok.1 hb
    obtain ⟨haccepts, hgives⟩ := h.ok a ha
    obtain ⟨haccepts', hgives'⟩ := (hf a ha hgives).ok b hb
    exact ⟨⟨haccepts, haccepts'⟩, hgives'⟩
  error e he := by
    rcases bind_eq_error.1 he with he | ⟨a, ha, he⟩
    · exact (h.error e he).imp_left (And.imp_left (mt And.left))
    · exact ((hf a ha (h.ok a ha).2).error e he).imp_left (And.imp_left (mt And.right))

/-- What is known of the result does not matter where it is only passed on. -/
theorem Decides.map (h : Decides x accepts gives) {f : α → β} {gives' : β → Prop}
    (hf : ∀ a, gives a → gives' (f a)) : Decides (x >>= fun a => pure (f a)) accepts gives' :=
  (h.bind fun a _ ha => decides_ok trivial (hf a ha)).mono ⟨fun h => ⟨h, trivial⟩, And.left⟩
    fun _ => id

theorem decides_mapM {f : α → Except CodecError β} {accepts : α → Prop} {gives : α → β → Prop}
    {xs : List α} (h : ∀ x ∈ xs, Decides (f x) (accepts x) (gives x)) :
    Decides (xs.mapM f) (∀ x ∈ xs, accepts x) (List.Forall₂ gives xs) := by
  induction xs with
  | nil => exact decides_ok (fun _ hx => absurd hx List.not_mem_nil) .nil
  | cons x xs ih =>
    obtain ⟨hx, hxs⟩ := List.forall_mem_cons.1 h
    rw [List.mapM_cons]
    refine (hx.bind fun y _ hy => (ih hxs).map fun ys hys => ?_).mono List.forall_mem_cons
      fun _ => id
    exact .cons hy hys

end Decides

/-! ## What is asked of values -/

/-- The strings that a value consists of: itself, or the items of an array. -/
def Value.texts : Value → List String
  | .string s => [s]
  | .array items => items.filterMap Value.text?
  | .int .. | .uuid _ | .ipv4 _ | .ipv6 _ | .struct _ => []

/-- An array has as many items as the size field among the siblings tells, and strings are not
longer than the length prefix of the field can tell. -/
structure Suits (f : PlacedField) (siblings : Fields) (v : Value) : Prop where
  counted : ∀ items, v = .array items → ∃ size, f.sizeField? = some size ∧
    (siblings.find? size).bind Value.natural? = some items.length
  texts : ∀ s ∈ v.texts, (Text.utf8Bytes s).length ≤ f.lengthFormat.greatest

/-- The value has the constructor that its format demands, and every struct in it has exactly the
members of its type. -/
structure Shaped (structs : StructLayouts) (f : PlacedField) (siblings : Fields) (v : Value) :
    Prop where
  admitted : f.format.Admits v
  keys : ∀ members ∈ v.structs, ∀ t layout, f.structType? = some t → structs t = some layout →
    ∀ name, name ∈ Keyed.keys members ↔ name ∈ layout.members.map (·.name)

/-- A struct has exactly the members of its layout, and their values are shaped. -/
structure Formed (structs : StructLayouts) (layout : StructLayout) (members : Fields) : Prop where
  keys : ∀ name, name ∈ Keyed.keys members ↔ name ∈ layout.members.map (·.name)
  shaped : Everywhere structs (Shaped structs) layout.members members

/-- What is asked of a value and of what is inline in it. -/
def SuitsInline (structs : StructLayouts) (f : PlacedField) (siblings : Fields) (v : Value) :
    Prop :=
  Suits f siblings v ∧ (f.isIndirect = false → ∀ members ∈ v.structs, ∀ t layout,
    f.structType? = some t → structs t = some layout →
    Inline structs Suits layout.members members)

/-- The struct that a slot is for. -/
def Pointee.remote (p : Pointee) : Remote := ⟨p.layout, p.values⟩

namespace Codec

variable {c : Codec} {depth bound : Nat} {structs : StructLayouts} {f : PlacedField}

/-- The pieces are what a part of an encoding takes, and the elements of their slots are of structs
that nest less deep than a bound. -/
structure Gives (c : Codec) (bound : Nat) (e : Extent) (pieces : List Piece) : Prop where
  size : Piece.size pieces = e.size
  remotes : (Piece.pointees pieces).map Pointee.remote = e.remotes
  shallow : ∀ p ∈ Piece.pointees pieces, p.depth < bound ∧
    ∃ t, c.plan.struct? t = some p.layout ∧ StructLayouts.Shallow c.plan.struct? p.depth t

section Gives

variable {e : Extent} {xs ys : List Piece}

theorem gives_nil : Gives c bound (.join []) [] :=
  ⟨rfl, rfl, fun _ hp => absurd hp List.not_mem_nil⟩

theorem gives_ofBytes {bytes : List UInt8} {n : Nat} (h : bytes.length = n) :
    Gives c bound ⟨n, []⟩ (Piece.ofBytes bytes) where
  size := (Piece.size_ofBytes bytes).trans h
  remotes := by rw [Piece.pointees_ofBytes]; rfl
  shallow := by
    rw [Piece.pointees_ofBytes]
    exact fun _ hp => absurd hp List.not_mem_nil

theorem Gives.mono (h : Gives c depth e xs) (hle : depth ≤ bound) : Gives c bound e xs :=
  ⟨h.size, h.remotes, fun p hp => (h.shallow p hp).imp_left fun hlt => hlt.trans_le hle⟩

theorem Gives.append (hx : Gives c bound e xs) {rest : List Extent}
    (hy : Gives c bound (.join rest) ys) : Gives c bound (.join (e :: rest)) (xs ++ ys) where
  size := by rw [Piece.size_append, hx.size, hy.size, Extent.size_join_cons]
  remotes := by
    rw [Piece.pointees_append, List.map_append, hx.remotes, hy.remotes, Extent.remotes_join_cons]
  shallow p hp := by
    rw [Piece.pointees_append] at hp
    exact (List.mem_append.1 hp).elim (hx.shallow p) (hy.shallow p)

theorem Gives.behind (h : Gives c bound e xs) {header : List UInt8} {n : Nat}
    (hheader : header.length = n) : Gives c bound (e.behind n) (Piece.ofBytes header ++ xs) where
  size := by rw [Piece.size_append, Piece.size_ofBytes, hheader, h.size]; rfl
  remotes := by
    rw [Piece.pointees_append, Piece.pointees_ofBytes, List.nil_append, h.remotes]
    rfl
  shallow p hp := by
    rw [Piece.pointees_append, Piece.pointees_ofBytes, List.nil_append] at hp
    exact h.shallow p hp

end Gives

/-! ## Values -/

/-- A value without parts is refused only if it is a string that is too long. -/
theorem decides_element {e : Element} {v : Value} (h : e.Admits v) :
    Decides (e.encode c.order f.name f.lengthFormat v)
      (∀ s ∈ v.texts, (Text.utf8Bytes s).length ≤ f.lengthFormat.greatest)
      (fun bytes => bytes.length = (v.extent structs f).size) := by
  cases e with
  | int i =>
    cases v with
    | int j word =>
      have hsame : i = j := h
      rw [Element.encode, if_pos hsame]
      refine decides_ok (fun _ hs => absurd hs List.not_mem_nil) ?_
      rw [c.order.length_bytes, hsame]
      rfl
    | _ => cases h
  | uuid | ipv4 | ipv6 =>
    cases v with
    | uuid b | ipv4 b | ipv6 b =>
      first
      | exact decides_ok (fun _ hs => absurd hs List.not_mem_nil) b.property
      | cases h
    | _ => cases h
  | string =>
    cases v with
    | string s =>
      unfold Element.encode
      dsimp only
      split
      · next hle =>
        refine decides_ok (by simpa [Value.texts] using hle) ?_
        rw [List.length_append, c.order.length_bytes]
        rfl
      · next hlong => exact decides_error (by simpa [Value.texts] using hlong) trivial
    | _ => cases h

/-- Structs of this depth that are formed are accepted if all inline in them suits. -/
def Judges (c : Codec) (depth : Nat) : Prop :=
  ∀ ⦃t layout members⦄, c.plan.struct? t = some layout →
    StructLayouts.Shallow c.plan.struct? depth t → Formed c.plan.struct? layout members →
    ∀ start, Decides (encodeStruct c depth layout members start)
      (Inline c.plan.struct? Suits layout.members members)
      (Gives c depth (listExtent c.plan.struct? layout.members members))

section Structs

variable (hinner : Judges c depth) {t : String} {layout : StructLayout}
  (htype : f.structType? = some t) (hlayout : c.plan.struct? t = some layout)
  (hshallow : StructLayouts.Shallow c.plan.struct? depth t)

include hinner htype hlayout hshallow

/-- Structs one after the other. -/
theorem decides_encodeStructs {items : List Value}
    (hitems : ∀ item ∈ items, ∃ members, item = .struct members ∧
      Formed c.plan.struct? layout members) (start : Nat) :
    Decides (encodeStructs (encodeStruct c depth) f.name layout start items)
      (∀ members, .struct members ∈ items → Inline c.plan.struct? Suits layout.members members)
      (Gives c depth (.join (items.map (·.extent c.plan.struct? f)))) := by
  induction items generalizing start with
  | nil => exact decides_ok (fun _ hm => absurd hm List.not_mem_nil) gives_nil
  | cons item items ih =>
    obtain ⟨⟨members, rfl, hformed⟩, hrest⟩ := List.forall_mem_cons.1 hitems
    refine ((hinner hlayout hshallow hformed start).bind fun pieces _ hpieces =>
      (ih hrest (start + Piece.size pieces)).map fun others hothers => ?_).mono ?_ fun _ => id
    · rw [List.map_cons, extent_struct htype hlayout]
      exact hpieces.append hothers
    · simp

omit hinner in
/-- The slots of an indirect array are accepted. -/
theorem decides_encodeSlots (hformat : f.format = .refStructArray) {items : List Value}
    (hitems : ∀ item ∈ items, ∃ members, item = .struct members) :
    Decides (items.mapM (encodeSlot f.name layout depth)) True
      (Gives c (depth + 1) ((Value.array items).extent c.plan.struct? f)) where
  ok pieces h := by
    obtain ⟨members, rfl, rfl⟩ := mapM_encodeSlot h
    rw [extent_slots hformat htype hlayout]
    refine ⟨trivial, ?_, ?_, ?_⟩
    · rw [size_slots, List.length_map, List.length_map]
    · rw [pointees_slots]
      simp [Pointee.remote, Value.fields?, Function.comp_def]
    · rw [pointees_slots]
      intro p hp
      obtain ⟨m, -, rfl⟩ := List.mem_map.1 hp
      exact ⟨Nat.lt_succ_self depth, t, hlayout, hshallow⟩
  error e he := by
    obtain ⟨item, hitem, he⟩ := exists_of_mapM_eq_error he
    obtain ⟨members, rfl⟩ := hitems item hitem
    cases he

end Structs

/-- A count is right, or it does not fit, or there is none. -/
theorem decides_requireCount {siblings : Fields} (hcounted : f.sizeField?.isSome) (items : Nat) :
    Decides (requireCount f items siblings)
      (∃ size, f.sizeField? = some size ∧
        (siblings.find? size).bind Value.natural? = some items) (fun _ => True) := by
  obtain ⟨size, hsize⟩ := Option.isSome_iff_exists.1 hcounted
  have haccepts : (∃ size, f.sizeField? = some size ∧
      (siblings.find? size).bind Value.natural? = some items) ↔ countOf f siblings = .ok items := by
    rw [countOf_eq_ok, sizeField, hsize, Option.getD_some]
    simp
  rw [haccepts]
  constructor
  · intro u h
    exact ⟨requireCount_eq_ok.1 h, trivial⟩
  · intro e he
    refine .inl ⟨fun hcount => ?_, ?_⟩
    · have hok : requireCount f items siblings = .ok () := requireCount_eq_ok.2 hcount
      cases hok.symm.trans he
    · rcases bind_eq_error.1 he with he | ⟨count, -, he⟩
      · unfold countOf at he
        split at he
        · cases he
        · cases he
          trivial
      · split at he
        · cases he
        · cases he
          trivial

/-- The bytes of the elements of a plain array. -/
theorem gives_elements {items : List Value} {parts : List (List UInt8)}
    (hremotes : ∀ v ∈ items, (v.extent structs f).remotes = [])
    (h : List.Forall₂ (fun v bytes => bytes.length = (v.extent structs f).size) items parts) :
    Gives c bound (.join (items.map (·.extent structs f))) (Piece.ofBytes parts.flatten) := by
  induction h with
  | nil => exact gives_nil
  | cons hbytes _ ih =>
    obtain ⟨hnone, hremotes⟩ := List.forall_mem_cons.1 hremotes
    rw [List.flatten_cons, Piece.ofBytes_append, List.map_cons]
    refine Gives.append ?_ (ih hremotes)
    have hfirst : Gives c bound _ (Piece.ofBytes _) := gives_ofBytes hbytes
    rwa [← hnone] at hfirst

end Codec

/-- The strings of a value without parts. -/
theorem Element.Admits.mem_texts {e : Element} {v : Value} (h : e.Admits v) {s : String} :
    s ∈ v.texts ↔ v.text? = some s := by
  cases v with
  | struct | array => cases e <;> cases h
  | string text => simp [Value.texts, Value.text?, eq_comm]
  | int | uuid | ipv4 | ipv6 => simp [Value.texts, Value.text?]

/-- Structs are no strings. -/
theorem Value.texts_of_structs {items : List Value}
    (h : ∀ item ∈ items, ∃ members, item = .struct members) : (Value.array items).texts = [] := by
  refine List.filterMap_eq_nil_iff.2 fun item hitem => ?_
  obtain ⟨members, rfl⟩ := h item hitem
  rfl

namespace Codec

section Values

variable {c : Codec} {depth : Nat} {f : PlacedField} (hinner : Judges c depth)
  (hsized : SizeFits c.plan.struct? f.toField f.size)
  (hshallow : ∀ t, f.structType? = some t → StructLayouts.Shallow c.plan.struct? depth t)

include hinner hsized hshallow

/-- The items of an array. -/
theorem decides_encodeItems {items : List Value} (hadmitted : f.format.Admits (.array items))
    (hformed : ∀ members ∈ (Value.array items).structs, ∀ t layout, f.structType? = some t →
      c.plan.struct? t = some layout → Formed c.plan.struct? layout members) (start : Nat) :
    Decides (encodeItems c (encodeStruct c depth) depth f start items)
      ((∀ s ∈ (Value.array items).texts, (Text.utf8Bytes s).length ≤ f.lengthFormat.greatest) ∧
        (f.isIndirect = false → ∀ members ∈ (Value.array items).structs, ∀ t layout,
          f.structType? = some t → c.plan.struct? t = some layout →
          Inline c.plan.struct? Suits layout.members members))
      (Gives c (depth + 1) ((Value.array items).extent c.plan.struct? f)) := by
  rcases format_of_isArray hadmitted.isArray with ⟨e, hformat⟩ | hformat | hformat
  · rw [hformat] at hadmitted
    have hitems : ∀ item ∈ items, e.Admits item := hadmitted
    rw [encodeItems, hformat, extent_items (by simp [hformat])]
    have hparts : Decides (items.mapM (e.encode c.order f.name f.lengthFormat))
        (∀ item ∈ items, ∀ s ∈ item.texts, (Text.utf8Bytes s).length ≤ f.lengthFormat.greatest)
        (List.Forall₂ (fun v bytes => bytes.length = (v.extent c.plan.struct? f).size) items) :=
      decides_mapM fun item hitem => decides_element (hitems item hitem)
    refine (hparts.map fun parts hparts => gives_elements (fun v hv => (hitems v hv).remotes)
      hparts).mono ⟨fun h item hitem s hs => ?_, fun h => ⟨fun s hs => ?_, ?_⟩⟩ fun _ => id
    · exact h.1 s (List.mem_filterMap.2 ⟨item, hitem, (hitems item hitem).mem_texts.1 hs⟩)
    · obtain ⟨item, hitem, htext⟩ := List.mem_filterMap.1 hs
      exact h item hitem s ((hitems item hitem).mem_texts.2 htext)
    · intro _ members hmembers
      rcases Value.mem_structs.1 hmembers with hsame | ⟨_, hsame, hitem⟩
      · cases hsame
      · cases hsame
        cases (hitems _ hitem).flat.1
  · rw [hformat] at hadmitted
    have hitems : ∀ item ∈ items, ∃ members, item = .struct members := hadmitted
    obtain ⟨t, layout, htype, hlayout⟩ := hsized.exists_layout (by rw [hformat]; rfl)
    have hdirect : f.isIndirect = false := by simp [PlacedField.isIndirect, hformat]
    have hmembers : ∀ members, .struct members ∈ items → members ∈ (Value.array items).structs :=
      fun members hitem => Value.mem_structs.2 (.inr ⟨items, rfl, hitem⟩)
    have hforms : ∀ item ∈ items, ∃ members, item = .struct members ∧
        Formed c.plan.struct? layout members := by
      intro item hitem
      obtain ⟨members, rfl⟩ := hitems item hitem
      exact ⟨members, rfl, hformed members (hmembers members hitem) t layout htype hlayout⟩
    rw [encodeItems, hformat, extent_items (by simp [hformat]),
      structOf_eq_ok.2 ⟨t, htype, hlayout⟩]
    refine (decides_encodeStructs hinner htype hlayout (hshallow t htype) hforms start).mono ?_
      fun _ h => h.mono (Nat.le_succ depth)
    constructor
    · rintro ⟨-, hinline⟩ members hitem
      exact hinline hdirect members (hmembers members hitem) t layout htype hlayout
    · intro hinline
      have htexts : (Value.array items).texts = [] := Value.texts_of_structs hitems
      refine ⟨by simp [htexts], fun _ members hmem t' layout' htype' hlayout' => ?_⟩
      cases htype.symm.trans htype'
      cases hlayout.symm.trans hlayout'
      rcases Value.mem_structs.1 hmem with hsame | ⟨_, hsame, hitem⟩
      · cases hsame
      · cases hsame
        exact hinline members hitem
  · rw [hformat] at hadmitted
    have hitems : ∀ item ∈ items, ∃ members, item = .struct members := hadmitted
    obtain ⟨t, layout, htype, hlayout⟩ := hsized.exists_layout (by rw [hformat]; rfl)
    have hindirect : f.isIndirect = true := by simp [PlacedField.isIndirect, hformat]
    have hslots := decides_encodeSlots htype hlayout (hshallow t htype) hformat hitems
    rw [encodeItems, hformat, structOf_eq_ok.2 ⟨t, htype, hlayout⟩]
    refine hslots.mono ?_ fun _ => id
    simp [Value.texts_of_structs hitems, hindirect]

/-- **A value is accepted if it suits**, with all that is inline in it. The cases are those of the
encoder. -/
theorem decides_encodeValue (hcounted : f.format.isArray = true → f.sizeField?.isSome)
    {siblings : Fields} {v : Value} (hadmitted : f.format.Admits v)
    (hformed : ∀ members ∈ v.structs, ∀ t layout, f.structType? = some t →
      c.plan.struct? t = some layout → Formed c.plan.struct? layout members) (start : Nat) :
    Decides (encodeValue c (encodeStruct c depth) depth f siblings start v)
      (SuitsInline c.plan.struct? f siblings v)
      (Gives c (depth + 1) (v.extent c.plan.struct? f)) := by
  cases hscalar : f.format.scalar? with
  | some e =>
    have he := (Format.admits_of_scalar? hscalar).1 hadmitted
    have helement : Decides (e.encode c.order f.name f.lengthFormat v)
        (∀ s ∈ v.texts, (Text.utf8Bytes s).length ≤ f.lengthFormat.greatest)
        (fun bytes => bytes.length = (v.extent c.plan.struct? f).size) := decides_element he
    rw [encodeValue, hscalar]
    refine (helement.map fun bytes hbytes => ?_).mono ⟨fun h => h.1.texts, fun h => ?_⟩ fun _ => id
    · have hgives : Gives c (depth + 1) _ (Piece.ofBytes bytes) := gives_ofBytes hbytes
      rwa [← he.remotes] at hgives
    · refine ⟨⟨fun items hitems => absurd hitems (he.flat.2 items), h⟩, fun _ _ hmembers => ?_⟩
      rw [he.flat.1] at hmembers
      cases hmembers
  | none =>
    cases harray : f.format.isArray with
    | true =>
      obtain ⟨items, rfl⟩ := hadmitted.exists_items harray
      rw [encodeValue, hscalar]
      dsimp only
      rw [if_pos harray]
      refine ((decides_requireCount (hcounted harray) items.length).bind fun _ _ _ =>
        decides_encodeItems hinner hsized hshallow hadmitted hformed start).mono ?_ fun _ => id
      constructor
      · rintro ⟨hsuits, hinline⟩
        exact ⟨hsuits.counted items rfl, hsuits.texts, hinline⟩
      · rintro ⟨hcount, htexts, hinline⟩
        refine ⟨⟨?_, htexts⟩, hinline⟩
        rintro _ ⟨⟩
        exact hcount
    | false =>
      have hformat := format_of_single hscalar harray
      obtain ⟨members, rfl⟩ := hadmitted.exists_members hformat
      obtain ⟨t, layout, htype, hlayout⟩ := hsized.exists_layout (by
        rcases hformat with heq | heq <;> rw [heq] <;> rfl)
      have hdirect : f.isIndirect = false := by
        rcases hformat with heq | heq <;> simp [PlacedField.isIndirect, heq]
      have hmembers : members ∈ (Value.struct members).structs := List.mem_singleton_self _
      rw [encodeValue, hscalar, harray]
      dsimp only
      rw [if_neg Bool.false_ne_true, extent_struct htype hlayout]
      have hstruct := hinner hlayout (hshallow t htype)
        (hformed members hmembers t layout htype hlayout) start
      rw [show (Value.struct members).fields? = some members from rfl]
      dsimp only
      rw [structOf_eq_ok.2 ⟨t, htype, hlayout⟩]
      refine hstruct.mono ⟨fun h => ?_, fun h => ?_⟩ fun _ h => h.mono (Nat.le_succ depth)
      · exact h.2 hdirect members hmembers t layout htype hlayout
      · refine ⟨⟨fun _ hsame => ?_, fun _ hs => ?_⟩, ?_⟩
        · cases hsame
        · cases hs
        · intro _ others hothers t' layout' htype' hlayout'
          cases htype.symm.trans htype'
          cases hlayout.symm.trans hlayout'
          cases List.mem_singleton.1 hothers
          exact h

end Values

/-! ## Fields -/

/-- A header is refused only if the value is too long for it. -/
theorem decides_encodeHeader {c : Codec} {f : PlacedField}
    (hheader : f.header = 0 ∨ f.header = headerSize) (bytes : Nat) :
    Decides (encodeHeader c f bytes) (f.header ≠ 0 → bytes < UInt16.size)
      (fun header => header.length = f.header) := by
  unfold encodeHeader
  split
  · next hnone => exact decides_ok (fun h => absurd hnone h) hnone.symm
  · next hsome =>
    split
    · next hle =>
      refine decides_ok (fun _ => hle) ?_
      rw [hheader.resolve_left hsome, List.length_cons, c.order.length_bytes, headerSize]
    · next hlong => exact decides_error (fun h => hlong (h hsome)) trivial

/-- What is asked of a field in a list: of its value, and of the bytes that it takes if it has a
header. -/
def SuitsField (structs : StructLayouts) (values : Fields) (f : PlacedField) : Prop :=
  ∀ v, values.find? f.name = some v → SuitsInline structs f values v ∧
    (f.header ≠ 0 → (v.extent structs f).size < UInt16.size)

section Fields

variable {c : Codec} {depth header base bytes : Nat} {fields : List PlacedField}
  {o endOffset : Offset} {before : List String} {known : Known} {values seen : Fields}

/-- A field that is absent is passed over. -/
theorem encodeFields_cons_of_absent {f : PlacedField} {place : Nat} {rest : List PlacedField}
    (h : Prerequisite.allHold f.prerequisites values = .ok false) :
    encodeFields c (encodeStruct c depth) depth values base endOffset place known (f :: rest) =
      encodeFields c (encodeStruct c depth) depth values base endOffset place
        (known.without f.name) rest := by
  rw [encodeFields, h]
  rfl

/-- A field that is there is put in its place, behind its header. -/
theorem encodeFields_cons_of_present {f : PlacedField} {place : Nat} {rest : List PlacedField}
    (hheader : f.header = 0 ∨ f.header = headerSize)
    (h : Prerequisite.allHold f.prerequisites values = .ok true) {value : Value}
    (hvalue : values.find? f.name = some value) :
    encodeFields c (encodeStruct c depth) depth values base endOffset place known (f :: rest) = (do
      checkPlace f.name ((f.offset.evaluate? known).map (base + ·)) (place + f.header)
      let pieces ← encodeValue c (encodeStruct c depth) depth f values (place + f.header) value
      let header ← encodeHeader c f (Piece.size pieces)
      let others ← encodeFields c (encodeStruct c depth) depth values base endOffset
        (place + f.header + Piece.size pieces)
        (known.record f.toField value (Piece.size pieces)) rest
      return Piece.ofBytes header ++ pieces ++ others) := by
  have hstart : (if f.header = 0 then 0 else headerSize) = f.header := by
    split
    · next hnone => exact hnone.symm
    · next hsome => exact (hheader.resolve_left hsome).symm
  rw [encodeFields, h]
  dsimp only
  rw [hvalue, hstart]
  rfl

/-- An exact offset is met, or the encoder is beyond the 64-bit words. -/
theorem decides_checkPlace (field : String)
    (hexact : bytes < UInt64.size → Exact o known before seen bytes) :
    Decides (checkPlace field ((o.evaluate? known).map (base + ·)) (base + bytes)) True
      (fun _ => True) where
  ok _ _ := ⟨trivial, trivial⟩
  error e he := by
    refine .inr ⟨field, (o.evaluate? known).map (base + ·), base + bytes, ?_, ?_⟩
    · rw [checkPlace] at he
      split at he
      · cases he
      · exact (Except.error.inj he).symm
    · by_contra hword
      have hok : checkPlace field ((o.evaluate? known).map (base + ·)) (base + bytes) = .ok () :=
        checkPlace_eq_ok.2 ⟨bytes, (hexact (by omega)).evaluate?_eq (by omega), rfl⟩
      cases hok.symm.trans he

/-- What is encoded of a field tells its bytes, where siblings seen are those of the dictionary. -/
theorem measures_of_seen (hplan : c.plan.WellFormed) {f : PlacedField}
    (hsize : SizeFits c.plan.struct? f.toField f.size) (hfresh : f.name ∉ before)
    (hdeps : ∀ d ∈ f.dependencies, d ∈ before) (hseen : SeenAs before values seen) {place : Nat}
    {value : Value} {pieces : List Piece}
    (h : encodeValue c (encodeStruct c depth) depth f values place value = .ok pieces) :
    Measures f seen value (Piece.size pieces) := by
  refine measures_of_encodeValue hplan (keepsSizes_encodeStruct hplan depth) hsize
    (Field.counter_ne hfresh hdeps) (fun counter n hrepeated => ?_) h
  rw [hrepeated] at hsize
  exact hseen.countOf_eq hdeps (Option.isSome_of_mem (hsize.sizeField?_eq hplan.structs))

/-- **Fields are accepted if each of them suits.** The induction is on the fields. What it carries
is that the offset is exact, as long as places are 64-bit words, and that siblings seen are those of
the dictionary. -/
theorem decides_encodeFields (hplan : c.plan.WellFormed) (hinner : Judges c depth)
    (hheader : header = 0 ∨ header = headerSize) (hplaced : PlacedFrom header o fields endOffset)
    (horder : Field.InOrder before (fields.map (·.toField)))
    (hsized : ∀ f ∈ fields, SizeFits c.plan.struct? f.toField f.size)
    (hcounted : ∀ f ∈ fields, f.format.isArray = true → f.sizeField?.isSome)
    (hshallow : ∀ f ∈ fields, ∀ t, f.structType? = some t →
      StructLayouts.Shallow c.plan.struct? depth t)
    (hpresent : ∀ f ∈ fields, Prerequisite.allHold f.prerequisites values =
      .ok (values.find? f.name).isSome)
    (hshaped : Everywhere c.plan.struct? (Shaped c.plan.struct?) fields values)
    (haligned : bytes < UInt64.size → Aligned o known before seen bytes fields)
    (hseen : SeenAs before values seen) :
    Decides (encodeFields c (encodeStruct c depth) depth values base endOffset (base + bytes) known
        fields)
      (∀ f ∈ fields, SuitsField c.plan.struct? values f)
      (Gives c (depth + 1) (listExtent c.plan.struct? fields values)) := by
  induction fields generalizing o before known seen bytes with
  | nil =>
    cases hplaced
    exact ((decides_checkPlace _ fun hword => (haligned hword).offset).map fun _ _ =>
      gives_nil).mono (by simp) fun _ => id
  | cons f rest ih =>
    obtain ⟨hf, hoffset, hplaced⟩ := hplaced.cons_inv
    obtain ⟨hfresh, hdeps, horder⟩ := horder
    obtain ⟨hsize, hsized⟩ := List.forall_mem_cons.1 hsized
    obtain ⟨hcount, hcounted⟩ := List.forall_mem_cons.1 hcounted
    obtain ⟨hdeep, hshallow⟩ := List.forall_mem_cons.1 hshallow
    obtain ⟨hholds, hpresent⟩ := List.forall_mem_cons.1 hpresent
    obtain ⟨hshape, hshapes⟩ := List.forall_mem_cons.1 (throughout_iff.1 hshaped)
    have hshapes := throughout_iff.2 hshapes
    have hlist : listExtent c.plan.struct? (f :: rest) values = .join
        (.ofField (entryExtents c.plan.struct? values) f ::
          rest.map (.ofField (entryExtents c.plan.struct? values))) := rfl
    cases hvalue : values.find? f.name with
    | none =>
      rw [hvalue] at hholds
      have hrest := ih hplaced horder hsized hcounted hshallow hpresent hshapes
        (fun hword => (haligned hword).without hf hoffset hplan.structs hsize hdeps hfresh
          (Field.isConditional_of_allHold hholds)) (hseen.skip hvalue)
      rw [encodeFields_cons_of_absent hholds, hlist, ofField_of_none hvalue]
      refine hrest.mono ⟨fun h g hg => h g (.tail _ hg), fun h => ?_⟩ fun _ hothers =>
        gives_nil.append hothers
      refine List.forall_mem_cons.2 ⟨fun v hv => ?_, h⟩
      cases hvalue.symm.trans hv
    | some value =>
      rw [hvalue] at hholds
      rw [encodeFields_cons_of_present (hf.symm ▸ hheader) hholds hvalue, hlist,
        ofField_of_some hvalue, hf, Nat.add_assoc base bytes header]
      obtain ⟨hshape, hinside⟩ := hshape value hvalue
      have hplace : Decides (checkPlace f.name ((f.offset.evaluate? known).map (base + ·))
          (base + (bytes + header))) True (fun _ => True) :=
        decides_checkPlace f.name fun hword => (haligned (by omega)).start hf hoffset hword
      have hvalues : Decides (encodeValue c (encodeStruct c depth) depth f values
          (base + (bytes + header)) value) (SuitsInline c.plan.struct? f values value)
          (Gives c (depth + 1) (value.extent c.plan.struct? f)) :=
        decides_encodeValue hinner hsize hdeep hcount hshape.admitted
          (fun members hmembers t layout htype hlayout =>
            ⟨hshape.keys members hmembers t layout htype hlayout,
              hinside trivial members hmembers t layout htype hlayout⟩) _
      have hparts : (∀ g ∈ f :: rest, SuitsField c.plan.struct? values g) ↔
          True ∧ SuitsInline c.plan.struct? f values value ∧
            (f.header ≠ 0 → (value.extent c.plan.struct? f).size < UInt16.size) ∧
            ∀ g ∈ rest, SuitsField c.plan.struct? values g := by
        simp [SuitsField, hvalue, and_assoc]
      rw [hparts]
      refine hplace.bind fun _ _ _ => hvalues.bind fun pieces hpieces hgives => ?_
      rw [← hgives.size]
      refine (decides_encodeHeader (hf.symm ▸ hheader) _).bind fun _ _ hlength => ?_
      have hmeasures := measures_of_seen hplan hsize hfresh hdeps hseen hpieces
      have hothers := ih hplaced horder hsized hcounted hshallow hpresent hshapes
        (fun hword => (haligned (by omega)).record hf hoffset hplan.structs hsize hdeps hfresh
          hmeasures hword) (hseen.insert hvalue)
      rw [← Nat.add_assoc base] at hothers
      refine hothers.map fun others hothers => ?_
      exact (hgives.behind (hlength.trans hf)).append hothers

/-- **A well-placed list is accepted** if all inline in it suits and no value is too long for a
header. -/
theorem decides_wellPlaced (hplan : c.plan.WellFormed) (hinner : Judges c depth)
    (hheader : header = 0 ∨ header = headerSize)
    (hplaced : WellPlaced c.plan.struct? header fields endOffset) (hfits : Fits {} 0 fields)
    (hshallow : ∀ f ∈ fields, ∀ t, f.structType? = some t →
      StructLayouts.Shallow c.plan.struct? depth t)
    (hpresent : ∀ f ∈ fields, Prerequisite.allHold f.prerequisites values =
      .ok (values.find? f.name).isSome)
    (hshaped : Everywhere c.plan.struct? (Shaped c.plan.struct?) fields values) :
    Decides (encodeFields c (encodeStruct c depth) depth values base endOffset base .nothing fields)
      (Inline c.plan.struct? Suits fields values ∧ (header ≠ 0 → ∀ f ∈ fields, ∀ v,
        values.find? f.name = some v → (v.extent c.plan.struct? f).size < UInt16.size))
      (Gives c (depth + 1) (listExtent c.plan.struct? fields values)) := by
  have hdecides : Decides (encodeFields c (encodeStruct c depth) depth values base endOffset
      (base + 0) .nothing fields) (∀ f ∈ fields, SuitsField c.plan.struct? values f)
      (Gives c (depth + 1) (listExtent c.plan.struct? fields values)) :=
    decides_encodeFields hplan hinner hheader hplaced.placed hplaced.inOrder hplaced.sized
      (fun f hf => hplaced.counted hf) hshallow hpresent hshaped (fun _ => ⟨hfits, exact_start⟩)
      (seenAs_nil values)
  refine hdecides.mono ⟨fun h f hf v hv => ?_, fun h => ⟨?_, ?_⟩⟩ fun _ => id
  · have hinline := throughout_iff.1 h.1 f hf v hv
    exact ⟨hinline, fun hsome => h.2 (hplaced.placed.header_eq hf ▸ hsome) f hf v hv⟩
  · exact throughout_iff.2 fun f hf v hv => (h f hf v hv).1
  · exact fun hsome f hf v hv => (h f hf v hv).2 ((hplaced.placed.header_eq hf).symm ▸ hsome)

end Fields

/-! ## Structs -/

/-- **Structs are accepted if all inline in them suits.** The induction is on how deep structs nest.
-/
theorem decides_encodeStruct {c : Codec} (hplan : c.plan.WellFormed) (depth : Nat) :
    Judges c depth := by
  induction depth with
  | zero =>
    intro t layout members ht hshallow
    cases hshallow.symm.trans ht
  | succ depth ih =>
    intro t layout members ht hshallow hformed start
    obtain ⟨hmembers, hungated, -⟩ := hplan.structs ht
    have hpresent : ∀ f ∈ layout.members, Prerequisite.allHold f.prerequisites members =
        .ok (members.find? f.name).isSome := by
      intro f hf
      have hkey := (hformed.keys f.name).2 (List.mem_map_of_mem hf)
      rw [hungated f hf, Keyed.isSome_find?.2 hkey]
      rfl
    exact (decides_wellPlaced hplan ih (.inl rfl) hmembers (.inr ⟨Nat.le_refl 0, hungated⟩)
      (hshallow layout ht) hpresent hformed.shaped).mono
      ⟨fun h => ⟨h, fun hsome => absurd rfl hsome⟩, And.left⟩ fun _ => id

end Codec

end WirePlan
