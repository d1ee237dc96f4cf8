import WirePlan.Proofs.Codec.EncodeDecode
import WirePlan.Proofs.Codec.Throughout

/-!
# What decoding gives

Whatever the bytes, the values that a decode gives are those that the plan declares. A decoder
decides presence and counts on the siblings that it has seen so far, which say the same as the
result does (`SeenAs`), so every entry of the result is the value of a field that is decoded next to
the result itself (`exists_decodeValue_of_find?`). Such a value is as its field declares
(`declares_of_decodeValue`): the structs in it have all of their members, as members are never
absent, and by induction on the nesting their values are as declared in turn
(`givesWhole_decodeStruct`).
-/

namespace WirePlan

/-- The value is as its field declares: of the constructor that the format demands, an array of as
many items as the size field among the siblings tells, and every struct in it of a type of the plan
and with exactly the members of the type. -/
structure AsDeclared (structs : StructLayouts) (f : PlacedField) (siblings : Fields) (v : Value) :
    Prop where
  admitted : f.format.Admits v
  counted : ∀ items, v = .array items → ∃ size, f.sizeField? = some size ∧
    (siblings.find? size).bind Value.natural? = some items.length
  typed : ∀ members ∈ v.structs, ∃ t layout, f.structType? = some t ∧ structs t = some layout ∧
    ∀ name, name ∈ Keyed.keys members ↔ name ∈ layout.members.map (·.name)

/-- Exactly the members of a struct, everywhere as declared. -/
structure Whole (structs : StructLayouts) (layout : StructLayout) (members : Fields) : Prop where
  keys : ∀ name, name ∈ Keyed.keys members ↔ name ∈ layout.members.map (·.name)
  everywhere : Everywhere structs (AsDeclared structs) layout.members members

/-- The value is as its field declares, down to the structs in it. -/
structure Declares (structs : StructLayouts) (f : PlacedField) (siblings : Fields) (v : Value) :
    Prop where
  admitted : f.format.Admits v
  counted : ∀ items, v = .array items → Codec.countOf f siblings = .ok items.length
  structs : ∀ members ∈ v.structs, ∃ t layout, f.structType? = some t ∧ structs t = some layout ∧
    Whole structs layout members

/-- A dictionary whose entries are as declared is so everywhere. -/
theorem everywhere_of_declares {structs : StructLayouts} {fields : List PlacedField}
    (hcounted : ∀ f ∈ fields, f.format.isArray = true → f.sizeField?.isSome) {values : Fields}
    (h : ∀ f ∈ fields, ∀ v, values.find? f.name = some v → Declares structs f values v) :
    Everywhere structs (AsDeclared structs) fields values := by
  refine .intro (fun f hf v hv => ?_) fun f hf _ v hv members hmembers t layout htype hlayout => ?_
  · have hdeclares := h f hf v hv
    refine ⟨hdeclares.admitted, ?_, fun members hmembers => ?_⟩
    · rintro items rfl
      obtain ⟨size, hsize⟩ :=
        Option.isSome_iff_exists.1 (hcounted f hf hdeclares.admitted.isArray)
      have hcount := Codec.countOf_eq_ok.1 (hdeclares.counted items rfl)
      rw [Codec.sizeField, hsize, Option.getD_some] at hcount
      exact ⟨size, hsize, hcount⟩
    · obtain ⟨t, layout, htype, hlayout, hwhole⟩ := hdeclares.structs members hmembers
      exact ⟨t, layout, htype, hlayout, hwhole.keys⟩
  · obtain ⟨t', layout', htype', hlayout', hwhole⟩ := (h f hf v hv).structs members hmembers
    cases htype.symm.trans htype'
    cases hlayout.symm.trans hlayout'
    exact hwhole.everywhere

/-! ## Values by their parts -/

section Parts

variable {structs : StructLayouts} {f : PlacedField} {siblings : Fields} {e : Element}

/-- A value without parts is as its field declares, if it is of the format. -/
theorem declares_of_scalar (hscalar : f.format.scalar? = some e) {v : Value} (h : e.Admits v) :
    Declares structs f siblings v := by
  refine ⟨(Format.admits_of_scalar? hscalar).2 h, fun items heq => absurd heq (h.flat.2 items),
    fun members hmembers => ?_⟩
  rw [h.flat.1] at hmembers
  cases hmembers

/-- An array of values without parts is as its field declares, if the siblings tell its items. -/
theorem declares_of_elements (hformat : f.format = .array e) {items : List Value}
    (hcount : Codec.countOf f siblings = .ok items.length) (h : ∀ item ∈ items, e.Admits item) :
    Declares structs f siblings (.array items) := by
  refine ⟨by rw [hformat]; exact h, ?_, fun members hmembers => ?_⟩
  · rintro _ ⟨⟩
    exact hcount
  · rcases Value.mem_structs.1 hmembers with hsingle | ⟨_, hsame, hmem⟩
    · cases hsingle
    · cases hsame
      cases e <;> cases h _ hmem

/-- A whole struct is as its field declares. -/
theorem declares_of_whole (hformat : f.format = .struct ∨ f.format = .refStruct) {t : String}
    {layout : StructLayout} (htype : f.structType? = some t) (ht : structs t = some layout)
    {members : Fields} (hwhole : Whole structs layout members) :
    Declares structs f siblings (.struct members) := by
  refine ⟨?_, fun items hsame => ?_, fun others hothers => ?_⟩
  · rcases hformat with hformat | hformat <;> rw [hformat] <;> trivial
  · cases hsame
  · cases List.mem_singleton.1 hothers
    exact ⟨t, layout, htype, ht, hwhole⟩

end Parts

/-! ## Values without parts -/

namespace Element

variable {order : ByteOrder} {data : Array UInt8} {lengthFormat : IntFormat} {e : Element}

/-- A value that is decoded is of the format. -/
theorem admits_of_decode {v : Value} {cur cur' : Cursor}
    (h : e.decode order data lengthFormat cur = .ok (v, cur')) : e.Admits v := by
  cases e with
  | int i =>
    obtain ⟨n, -, h⟩ := bind_eq_ok.1 h
    cases pure_eq_ok.1 h
    rfl
  | uuid | ipv4 | ipv6 =>
    obtain ⟨octets, -, h⟩ := bind_eq_ok.1 h
    cases pure_eq_ok.1 h
    trivial
  | string =>
    obtain ⟨length, -, h⟩ := bind_eq_ok.1 h
    dsimp only at h
    split at h
    · cases h
    · obtain ⟨bytes, -, h⟩ := bind_eq_ok.1 h
      cases pure_eq_ok.1 h
      trivial

/-- As many values as asked for are decoded, each of the format. -/
theorem admits_of_decodeMany {count : Nat} {cur cur' : Cursor} {done items : List Value}
    (h : e.decodeMany order data lengthFormat count cur done = .ok (items, cur'))
    (hdone : ∀ v ∈ done, e.Admits v) :
    items.length = done.length + count ∧ ∀ v ∈ items, e.Admits v := by
  induction count generalizing cur done with
  | zero =>
    cases h
    exact ⟨List.length_reverse, fun v hv => hdone v (List.mem_reverse.1 hv)⟩
  | succ count ih =>
    rw [decodeMany] at h
    split at h
    · next hnext =>
      obtain ⟨hlength, hitems⟩ := ih h (List.forall_mem_cons.2 ⟨admits_of_decode hnext, hdone⟩)
      exact ⟨by rw [hlength, List.length_cons]; omega, hitems⟩
    · cases h

end Element

namespace Codec

variable {c : Codec} {data : Array UInt8} {inner : StructDecoder}

/-! ## Values with parts -/

/-- The value is a struct with such members. -/
def IsStruct (such : Fields → Prop) (v : Value) : Prop :=
  ∃ members, v = .struct members ∧ such members

section Structs

variable {layout : StructLayout} {such : Fields → Prop}
  (hinner : ∀ {start cur values size cur'},
    inner layout start cur = .ok (values, size, cur') → such values)

include hinner

theorem isStruct_of_decodeInline {v : Value} {cur cur' : Cursor}
    (h : decodeInline inner layout cur = .ok (v, cur')) : IsStruct such v := by
  obtain ⟨⟨values, size, after⟩, hstruct, h⟩ := bind_eq_ok.1 h
  cases pure_eq_ok.1 h
  exact ⟨values, rfl, hinner hstruct⟩

/-- As many structs as asked for are decoded one after the other. -/
theorem isStruct_of_decodeStructs {count : Nat} {cur cur' : Cursor} {done items : List Value}
    (h : decodeStructs inner layout count cur done = .ok (items, cur'))
    (hdone : ∀ v ∈ done, IsStruct such v) :
    items.length = done.length + count ∧ ∀ v ∈ items, IsStruct such v := by
  induction count generalizing cur done with
  | zero =>
    cases h
    exact ⟨List.length_reverse, fun v hv => hdone v (List.mem_reverse.1 hv)⟩
  | succ count ih =>
    rw [decodeStructs] at h
    split at h
    · next hnext =>
      obtain ⟨hlength, hitems⟩ :=
        ih h (List.forall_mem_cons.2 ⟨isStruct_of_decodeInline hinner hnext, hdone⟩)
      exact ⟨by rw [hlength, List.length_cons]; omega, hitems⟩
    · cases h

/-- A struct is decoded at every place. -/
theorem isStruct_of_decodePointees {places : List Nat} {cur cur' : Cursor}
    {done items : List Value}
    (h : decodePointees inner layout places cur done = .ok (items, cur'))
    (hdone : ∀ v ∈ done, IsStruct such v) :
    items.length = done.length + places.length ∧ ∀ v ∈ items, IsStruct such v := by
  induction places generalizing cur done with
  | nil =>
    cases h
    exact ⟨List.length_reverse, fun v hv => hdone v (List.mem_reverse.1 hv)⟩
  | cons place places ih =>
    rw [decodePointees] at h
    split at h
    · next values _ _ hnext =>
      have hstruct : IsStruct such (.struct values) := ⟨values, rfl, hinner hnext⟩
      obtain ⟨hlength, hitems⟩ := ih h (List.forall_mem_cons.2 ⟨hstruct, hdone⟩)
      exact ⟨by rw [hlength, List.length_cons, List.length_cons]; omega, hitems⟩
    · cases h

end Structs

/-- As many slots as asked for are read. -/
theorem length_of_readSlots {order : ByteOrder} {count start position : Nat}
    {done places : List Nat} (h : readSlots order data count start done = .ok (places, position)) :
    places.length = done.length + count := by
  induction count generalizing start done with
  | zero =>
    cases h
    exact List.length_reverse
  | succ count ih =>
    rw [readSlots] at h
    split at h
    · rw [ih h, List.length_cons]
      omega
    · cases h

/-- Structs of this depth are decoded to all of their members. -/
def GivesWhole (c : Codec) (inner : StructDecoder) : Prop :=
  ∀ ⦃t layout⦄, c.plan.struct? t = some layout → ∀ {start cur values size cur'},
    inner layout start cur = .ok (values, size, cur') → Whole c.plan.struct? layout values

/-- The items of an array of whole structs are as its field declares. -/
theorem declares_of_isStruct {f : PlacedField} {siblings : Fields} {items : List Value} {t : String}
    {layout : StructLayout} (hformat : f.format = .structArray ∨ f.format = .refStructArray)
    (htype : f.structType? = some t) (ht : c.plan.struct? t = some layout)
    (hcount : countOf f siblings = .ok items.length)
    (hitems : ∀ v ∈ items, IsStruct (Whole c.plan.struct? layout) v) :
    Declares c.plan.struct? f siblings (.array items) where
  admitted := by
    have hstructs : ∀ v ∈ items, ∃ members, v = Value.struct members := fun v hv =>
      let ⟨members, heq, _⟩ := hitems v hv
      ⟨members, heq⟩
    rcases hformat with hformat | hformat <;> rw [hformat] <;> exact hstructs
  counted := by
    rintro _ ⟨⟩
    exact hcount
  structs members hmembers := by
    rcases Value.mem_structs.1 hmembers with hsingle | ⟨_, hsame, hmem⟩
    · cases hsingle
    · cases hsame
      obtain ⟨_, heq, hwhole⟩ := hitems _ hmem
      cases heq
      exact ⟨t, layout, htype, ht, hwhole⟩

/-- An array that is decoded is as its field declares, if the siblings tell its items. -/
theorem declares_of_decodeItems (hinner : GivesWhole c inner) {f : PlacedField}
    (harray : f.format.isArray = true) {siblings : Fields} {count : Nat}
    (hcount : countOf f siblings = .ok count) {items : List Value} {cur after : Cursor}
    (h : decodeItems c data inner f count cur = .ok (items, after)) :
    Declares c.plan.struct? f siblings (.array items) := by
  rcases format_of_isArray harray with ⟨e, hformat⟩ | hformat | hformat
  · rw [decodeItems, hformat] at h
    obtain ⟨hlength, hadmits⟩ := Element.admits_of_decodeMany h
      fun _ hv => absurd hv List.not_mem_nil
    exact declares_of_elements hformat (by simpa [hlength] using hcount) hadmits
  · rw [decodeItems, hformat] at h
    obtain ⟨layout, hlayout, h⟩ := bind_eq_ok.1 h
    obtain ⟨t, htype, ht⟩ := structOf_eq_ok.1 hlayout
    obtain ⟨hlength, hstructs⟩ := isStruct_of_decodeStructs (hinner ht) h
      fun _ hv => absurd hv List.not_mem_nil
    exact declares_of_isStruct (.inl hformat) htype ht (by simpa [hlength] using hcount) hstructs
  · rw [decodeItems, hformat] at h
    obtain ⟨layout, hlayout, h⟩ := bind_eq_ok.1 h
    obtain ⟨t, htype, ht⟩ := structOf_eq_ok.1 hlayout
    obtain ⟨⟨places, position⟩, hplaces, h⟩ := bind_eq_ok.1 h
    obtain ⟨⟨items, behind⟩, hpointees, h⟩ := bind_eq_ok.1 h
    cases pure_eq_ok.1 h
    obtain ⟨hlength, hstructs⟩ :=
      isStruct_of_decodePointees (hinner ht) hpointees fun _ hv => absurd hv List.not_mem_nil
    rw [length_of_readSlots hplaces] at hlength
    exact declares_of_isStruct (.inr hformat) htype ht (by simpa [hlength] using hcount) hstructs

/-- **A value that is decoded is as its field declares**, next to the siblings seen. -/
theorem declares_of_decodeValue (hinner : GivesWhole c inner) {f : PlacedField} {seen : Fields}
    {value : Value} {cur after : Cursor}
    (h : decodeValue c data inner f seen cur = .ok (value, after)) :
    Declares c.plan.struct? f seen value := by
  cases hscalar : f.format.scalar? with
  | some e =>
    rw [decodeValue, hscalar] at h
    exact declares_of_scalar hscalar (Element.admits_of_decode h)
  | none =>
    cases harray : f.format.isArray with
    | true =>
      obtain ⟨items, count, rfl, hcount, hitems⟩ := (decodeValue_array_eq_ok harray).1 h
      exact declares_of_decodeItems hinner harray hcount hitems
    | false =>
      obtain ⟨layout, hlayout, hinline⟩ := (decodeValue_struct_eq_ok hscalar harray).1 h
      obtain ⟨t, htype, ht⟩ := structOf_eq_ok.1 hlayout
      obtain ⟨members, rfl, hwhole⟩ := isStruct_of_decodeInline (hinner ht) hinline
      exact declares_of_whole (format_of_single hscalar harray) htype ht hwhole

/-! ## Fields -/

section Fields

variable {base : Nat} {endOffset : Offset} {fields : List PlacedField} {before : List String}
  {seen result : Fields} {known : Known} {size : Nat} {cur cur' : Cursor}
  (h : decodeFields c data inner base endOffset seen known cur fields = .ok (result, size, cur'))

include h

/-- The result has entries for the fields only, besides those seen before. -/
theorem within_result (hwithin : Within before seen) :
    Within ((fields.map (·.name)).reverse ++ before) result := by
  induction fields generalizing before seen known cur with
  | nil =>
    obtain ⟨size, -, heq⟩ := decodeFields_nil_eq_ok.1 h
    cases heq
    exact hwithin
  | cons f rest ih =>
    rw [List.map_cons, List.reverse_cons, List.append_assoc, List.singleton_append]
    rcases decodeFields_cons_eq_ok.1 h with ⟨-, h⟩ | ⟨-, _, _, value, _, -, -, -, -, h⟩
    · exact ih h (hwithin.skip f.name)
    · exact ih h (hwithin.insert f.name value)

/-- **Every entry of the result is the value of a field that is decoded**, next to siblings that
count its items as the result does. The induction is on the fields. -/
theorem exists_decodeValue_of_find? (horder : Field.InOrder before (fields.map (·.toField)))
    (hcounted : ∀ f ∈ fields, f.format.isArray = true → f.sizeField?.isSome)
    (hwithin : Within before seen) : ∀ f ∈ fields, ∀ v, result.find? f.name = some v →
      ∃ siblings start after, decodeValue c data inner f siblings start = .ok (v, after) ∧
        (f.format.isArray = true → countOf f siblings = countOf f result) := by
  induction fields generalizing before seen known cur with
  | nil => exact fun _ hf => nomatch hf
  | cons f rest ih =>
    have hseen := seenAs_of_decodeFields h horder hwithin
    obtain ⟨hfresh, hdeps, horder⟩ := horder
    obtain ⟨hf, hcounted⟩ := List.forall_mem_cons.1 hcounted
    rcases decodeFields_cons_eq_ok.1 h with
      ⟨-, h⟩ | ⟨-, offset, _, value, after, -, -, hvalue, -, h⟩
    · refine List.forall_mem_cons.2 ⟨fun v hv => ?_, ih h horder hcounted (hwithin.skip f.name)⟩
      cases (find?_of_absent hwithin hfresh
        (seenAs_of_decodeFields h horder (hwithin.skip f.name))).symm.trans hv
    · have hwithin' := hwithin.insert f.name value
      refine List.forall_mem_cons.2 ⟨fun v hv => ?_, ih h horder hcounted hwithin'⟩
      cases (find?_of_present (seenAs_of_decodeFields h horder hwithin')).symm.trans hv
      exact ⟨seen, _, after, hvalue, fun harray => hseen.countOf_eq hdeps (hf harray)⟩

end Fields

/-- The entries of a well-placed list that is decoded are exactly its fields whose prerequisites
hold of the result, each as its field declares. -/
theorem declares_of_decodeFields (hinner : GivesWhole c inner) {header : Nat}
    {fields : List PlacedField} {endOffset : Offset}
    (hplaced : WellPlaced c.plan.struct? header fields endOffset) {base : Nat} {result : Fields}
    {size : Nat} {cur cur' : Cursor}
    (h : decodeFields c data inner base endOffset [] .nothing cur fields =
      .ok (result, size, cur')) :
    (∀ name, name ∈ Keyed.keys result ↔ ∃ f ∈ fields, f.name = name ∧
      Prerequisite.allHold f.prerequisites result = .ok true) ∧
    Everywhere c.plan.struct? (AsDeclared c.plan.struct?) fields result := by
  have hcounted : ∀ f ∈ fields, f.format.isArray = true → f.sizeField?.isSome :=
    fun f hf => hplaced.counted hf
  have hdecided := decided_of_decodeFields h hplaced.inOrder hcounted within_nil
  refine ⟨fun name => ⟨fun hname => ?_, ?_⟩, everywhere_of_declares hcounted fun f hf v hv => ?_⟩
  · have hfound := Keyed.isSome_find?.2 hname
    have hmem : name ∈ fields.map (·.name) := by
      by_contra habsent
      rw [(within_result h within_nil).absent name (by simpa using habsent)] at hfound
      cases hfound
    obtain ⟨f, hf, rfl⟩ := List.mem_map.1 hmem
    exact ⟨f, hf, rfl, (hdecided f hf).presence.trans (congrArg _ hfound)⟩
  · rintro ⟨f, hf, rfl, hholds⟩
    exact Keyed.isSome_find?.1 (Except.ok.inj ((hdecided f hf).presence.symm.trans hholds))
  · obtain ⟨siblings, start, after, hvalue, hsame⟩ :=
      exists_decodeValue_of_find? h hplaced.inOrder hcounted within_nil f hf v hv
    have hdeclares := declares_of_decodeValue hinner hvalue
    refine ⟨hdeclares.admitted, ?_, hdeclares.structs⟩
    rintro items rfl
    rw [← hsame hdeclares.admitted.isArray, hdeclares.counted items rfl]

/-- **Structs are decoded whole.** The induction is on how deep structs nest. -/
theorem givesWhole_decodeStruct (hplan : c.plan.WellFormed) (data : Array UInt8) (depth : Nat) :
    GivesWhole c (decodeStruct c data depth) := by
  induction depth with
  | zero =>
    intro t layout _ start cur values size cur' h
    cases h
  | succ depth ih =>
    intro t layout ht start cur values size cur' h
    have hlayout := hplan.structs ht
    obtain ⟨hkeys, heverywhere⟩ := declares_of_decodeFields ih hlayout.members h
    refine ⟨fun name => (hkeys name).trans ?_, heverywhere⟩
    rw [List.mem_map]
    refine exists_congr fun f => and_congr_right fun hf => and_iff_left ?_
    rw [hlayout.ungated f hf]
    rfl

end Codec

/-- **What is decoded is as the plan declares.** In every plan of a source, under either byte order
and whatever the bytes, the keys of a container that is decoded are exactly the fields whose
prerequisites hold of the values decoded. At every depth each value is of the constructor that its
field demands, each struct has exactly the members of its type, and each array has as many items as
its size field next to it tells. -/
theorem asDeclared_of_decode {source : String} {options : Options} {plan : Plan}
    (hplan : Plan.ofSource source options = .ok plan) {m : MessageLayout} (hm : m ∈ plan.messages)
    {container : ContainerLayout} (hcontainer : container ∈ m.containers) (order : ByteOrder)
    {bytes : List UInt8} {values : Fields} {covered : Nat}
    (h : Codec.decode ⟨plan, order⟩ container bytes = .ok (values, covered)) :
    (∀ name, name ∈ Keyed.keys values ↔ ∃ f ∈ container.fields, f.name = name ∧
      Prerequisite.allHold f.prerequisites values = .ok true) ∧
    Everywhere plan.struct? (AsDeclared plan.struct?) container.fields values := by
  have hwellFormed := Plan.wellFormed_ofSource hplan
  obtain ⟨⟨values, size, cur⟩, hread, hresult⟩ := bind_eq_ok.1 h
  cases pure_eq_ok.1 hresult
  exact Codec.declares_of_decodeFields (c := ⟨plan, order⟩)
    (Codec.givesWhole_decodeStruct hwellFormed _ _) (hwellFormed.containers m hm _ hcontainer) hread

/-- What all bytes but the last are decoded to is as declared, the structs of the array included. -/
theorem asDeclared_memo :
    Codec.decode ⟨memoPlan, .little⟩ memoContainer memoBytes = .ok (memoValues, 16) ∧
      Everywhere memoPlan.struct? (AsDeclared memoPlan.struct?) memoContainer.fields
        memoValues := by
  have hdecoded : Codec.decode ⟨memoPlan, .little⟩ memoContainer memoBytes =
      .ok (memoValues, 16) := toOption_eq_some.1 (by decide +kernel)
  exact ⟨hdecoded, (asDeclared_of_decode memoPlan_eq (.head _) (.head _) .little hdecoded).2⟩

end WirePlan
