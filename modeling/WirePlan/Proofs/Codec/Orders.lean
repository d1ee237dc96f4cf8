import WirePlan.Proofs.Codec.Acceptance
import WirePlan.Proofs.Codec.Queue
import WirePlan.Proofs.Codec.Strands

/-!
# Encodings in two byte orders

Two encoders that differ in the byte order alone go the same way: each part of one fails as that of
the other does, or both give pieces that spell the same strands, each in its order
(`Alike`, `Spelled`). The strands are those of the values. So fields start at the same places, the
same elements stand behind, at the same places, and what fills the slots of the pieces is what
settles the slots of the strands (`Spelled.fill_left`). With structs going the same way by induction
on the nesting, and levels of elements by induction on their number, the encodings in both orders
are the strands of the container rendered (`encode_in_orders`).
-/

namespace WirePlan

/-! ## Outcomes -/

/-- Both computations fail with the same error, or both succeed with related results. -/
inductive Alike {α β : Type} (R : α → β → Prop) :
    Except CodecError α → Except CodecError β → Prop where
  | ok {a : α} {b : β} (h : R a b) : Alike R (.ok a) (.ok b)
  | error (e : CodecError) : Alike R (.error e) (.error e)

section Alike

variable {α β γ δ : Type} {R : α → β → Prop} {S : γ → δ → Prop}

theorem Alike.bind {x : Except CodecError α} {y : Except CodecError β}
    {f : α → Except CodecError γ} {g : β → Except CodecError δ} (h : Alike R x y)
    (hf : ∀ a b, R a b → Alike S (f a) (g b)) : Alike S (x >>= f) (y >>= g) := by
  cases h with
  | ok hab => exact hf _ _ hab
  | error e => exact .error e

theorem Alike.eq_error {e : CodecError} {y : Except CodecError β} (h : Alike R (.error e) y) :
    y = .error e := by
  cases h
  rfl

theorem Alike.exists_eq_ok {a : α} {y : Except CodecError β} (h : Alike R (.ok a) y) :
    ∃ b, y = .ok b ∧ R a b := by
  cases h with
  | ok hab => exact ⟨_, rfl, hab⟩

/-- A step that is the same on both sides. -/
theorem Alike.bind_same {x : Except CodecError α} {f : α → Except CodecError γ}
    {g : α → Except CodecError δ} (hf : ∀ a, x = .ok a → Alike S (f a) (g a)) :
    Alike S (x >>= f) (x >>= g) := by
  cases x with
  | ok a => exact hf a rfl
  | error e => exact .error e

end Alike

/-! ## Pieces that spell strands -/

/-- The pieces spell the strands, those on the left in the first byte order and those on the right
in the second. -/
inductive Spelled (o o' : ByteOrder) : List (Strand Remote) → (left right : List Piece) → Prop where
  | nil : Spelled o o' [] [] []
  | raw {strands : List (Strand Remote)} {left right : List Piece} (bytes : List UInt8)
      (h : Spelled o o' strands left right) :
      Spelled o o' (.raw bytes :: strands) (Piece.ofBytes bytes ++ left)
        (Piece.ofBytes bytes ++ right)
  | number {strands : List (Strand Remote)} {left right : List Piece} (width n : Nat)
      (h : Spelled o o' strands left right) :
      Spelled o o' (.number width n :: strands) (Piece.ofBytes (o.bytes width n) ++ left)
        (Piece.ofBytes (o'.bytes width n) ++ right)
  | slot {strands : List (Strand Remote)} {left right : List Piece} (p : Pointee)
      (h : Spelled o o' strands left right) :
      Spelled o o' (.slot p.remote :: strands) (.slot p :: left) (.slot p :: right)

namespace Spelled

variable {o o' : ByteOrder} {strands others : List (Strand Remote)}
  {left right left' right' : List Piece}

theorem append (h : Spelled o o' strands left right) (h' : Spelled o o' others left' right') :
    Spelled o o' (strands ++ others) (left ++ left') (right ++ right') := by
  induction h with
  | nil => exact h'
  | raw bytes _ ih => simpa using .raw bytes ih
  | number width n _ ih => simpa using .number width n ih
  | slot p _ ih => exact .slot p ih

theorem swap (h : Spelled o o' strands left right) : Spelled o' o strands right left := by
  induction h with
  | nil => exact .nil
  | raw bytes _ ih => exact .raw bytes ih
  | number width n _ ih => exact .number width n ih
  | slot p _ ih => exact .slot p ih

/-- Pieces take what the strands do. -/
theorem size_left (h : Spelled o o' strands left right) :
    Piece.size left = Strand.sizes strands := by
  induction h with
  | nil => rfl
  | raw bytes _ ih | number width n _ ih => simp [Strand.size, ih]
  | slot p _ ih => simp [Piece.size, Strand.size, ih]

theorem size_right (h : Spelled o o' strands left right) :
    Piece.size right = Strand.sizes strands :=
  h.swap.size_left

/-- The slots of the pieces are for the same elements. -/
theorem pointees_eq (h : Spelled o o' strands left right) :
    Piece.pointees left = Piece.pointees right := by
  induction h with
  | nil => rfl
  | raw bytes _ ih | number width n _ ih => simpa using ih
  | slot p _ ih => exact congrArg (p :: ·) ih

theorem remotes (h : Spelled o o' strands left right) :
    (Piece.pointees left).map Pointee.remote = Strand.targets strands := by
  induction h with
  | nil => rfl
  | raw bytes _ ih | number width n _ ih =>
    rw [Piece.pointees_append, Piece.pointees_ofBytes]
    exact ih
  | slot p _ ih => exact congrArg (p.remote :: ·) ih

/-- The places that fill the slots of pieces settle those of the strands. -/
theorem fill_left (h : Spelled o o' strands left right) (places : List Nat) :
    Piece.fill o places left = Strand.render o (Strand.settle places strands) := by
  induction h generalizing places with
  | nil => cases places <;> rfl
  | raw bytes _ ih =>
    rw [Piece.fill_ofBytes_append, ih, Strand.settle]
    rfl
  | number width n _ ih =>
    rw [Piece.fill_ofBytes_append, ih, Strand.settle]
    rfl
  | slot p _ ih =>
    cases places with
    | nil =>
      rw [Piece.fill, ih, Strand.settle]
      rfl
    | cons place places =>
      rw [Piece.fill, ih, Strand.settle]
      rfl

theorem fill_right (h : Spelled o o' strands left right) (places : List Nat) :
    Piece.fill o' places right = Strand.render o' (Strand.settle places strands) :=
  h.swap.fill_left places

theorem ofRaw (bytes : List UInt8) :
    Spelled o o' [.raw bytes] (Piece.ofBytes bytes) (Piece.ofBytes bytes) := by
  have hraw : Spelled o o' _ _ _ := .raw bytes .nil
  simpa using hraw

theorem ofNumber (width n : Nat) :
    Spelled o o' [.number width n] (Piece.ofBytes (o.bytes width n))
      (Piece.ofBytes (o'.bytes width n)) := by
  have hnumber : Spelled o o' _ _ _ := .number width n .nil
  simpa using hnumber

end Spelled

namespace Codec

variable {plan : Plan} {o o' : ByteOrder}

/-! ## Values -/

/-- The results of both computations spell these strands. -/
abbrev SpellAlike (o o' : ByteOrder) (strands : List (Strand Remote))
    (x y : Except CodecError (List Piece)) : Prop :=
  Alike (Spelled o o' strands) x y

theorem spellAlike_ok_append {strands others : List (Strand Remote)}
    {left right left' right' : List Piece} (h : Spelled o o' strands left right)
    (h' : Spelled o o' others left' right') :
    SpellAlike o o' (strands ++ others) (pure (left ++ left')) (pure (right ++ right')) :=
  .ok (h.append h')

/-- The bytes of a value without parts spell its strands. -/
theorem alike_encode_element (structs : StructLayouts) (e : Element) (v : Value)
    (f : PlacedField) :
    Alike (fun bytes bytes' => Spelled o o' (v.strands structs f) (Piece.ofBytes bytes)
        (Piece.ofBytes bytes'))
      (e.encode o f.name f.lengthFormat v) (e.encode o' f.name f.lengthFormat v) := by
  cases e with
  | int i =>
    cases v with
    | int j word =>
      rw [Element.encode, Element.encode]
      split
      · next h =>
        cases h
        exact .ok (.ofNumber i.size word.toNat)
      · exact .error _
    | uuid | string | ipv4 | ipv6 | array | struct => exact .error _
  | uuid =>
    cases v with
    | uuid octets => exact .ok (.ofRaw octets.val)
    | int | string | ipv4 | ipv6 | array | struct => exact .error _
  | ipv4 =>
    cases v with
    | ipv4 octets => exact .ok (.ofRaw octets.val)
    | int | uuid | string | ipv6 | array | struct => exact .error _
  | ipv6 =>
    cases v with
    | ipv6 octets => exact .ok (.ofRaw octets.val)
    | int | uuid | string | ipv4 | array | struct => exact .error _
  | string =>
    cases v with
    | string s =>
      rw [Element.encode, Element.encode]
      split
      · refine .ok ?_
        rw [Piece.ofBytes_append, Piece.ofBytes_append]
        exact .number _ _ (.ofRaw _)
      · exact .error _
    | int | uuid | ipv4 | ipv6 | array | struct => exact .error _

/-- The bytes of values without parts spell the strands of all. -/
theorem alike_encode_elements (structs : StructLayouts) (e : Element) (items : List Value)
    (f : PlacedField) :
    Alike (fun parts parts' => Spelled o o' (items.flatMap (·.strands structs f))
        (Piece.ofBytes parts.flatten) (Piece.ofBytes parts'.flatten))
      (items.mapM (e.encode o f.name f.lengthFormat))
      (items.mapM (e.encode o' f.name f.lengthFormat)) := by
  induction items with
  | nil => exact .ok .nil
  | cons v rest ih =>
    rw [List.mapM_cons, List.mapM_cons, List.flatMap_cons]
    refine (alike_encode_element structs e v f).bind fun bytes bytes' hbytes => ?_
    refine ih.bind fun parts parts' hparts => .ok ?_
    rw [List.flatten_cons, List.flatten_cons, Piece.ofBytes_append, Piece.ofBytes_append]
    exact hbytes.append hparts

/-- Structs are encoded alike, to the strands of their members. -/
def StructsAlike (plan : Plan) (o o' : ByteOrder) (inner inner' : StructEncoder) : Prop :=
  ∀ layout members start, SpellAlike o o' (listStrands plan.struct? layout.members members)
    (inner layout members start) (inner' layout members start)

section Values

variable {inner inner' : StructEncoder} {depth : Nat} {f : PlacedField} {t : String}
  {layout : StructLayout}

theorem alike_encodeStructs (hinner : StructsAlike plan o o' inner inner')
    (htype : f.structType? = some t) (ht : plan.struct? t = some layout) (items : List Value)
    (start : Nat) :
    SpellAlike o o' (items.flatMap (·.strands plan.struct? f))
      (encodeStructs inner f.name layout start items)
      (encodeStructs inner' f.name layout start items) := by
  induction items generalizing start with
  | nil => exact .ok .nil
  | cons item rest ih =>
    rw [encodeStructs, encodeStructs, List.flatMap_cons]
    split
    · exact .error _
    · next members hmembers =>
      cases fields?_eq_some.1 hmembers
      rw [strands_struct htype ht]
      refine (hinner layout members start).bind fun pieces pieces' hpieces => ?_
      rw [hpieces.size_left, hpieces.size_right]
      refine (ih _).bind fun others others' hothers => ?_
      exact spellAlike_ok_append hpieces hothers

/-- Slots are the same in both orders. -/
theorem alike_encodeSlots (items : List Value) :
    SpellAlike o o' ((items.filterMap Value.fields?).map fun members => .slot ⟨layout, members⟩)
      (items.mapM (encodeSlot f.name layout depth))
      (items.mapM (encodeSlot f.name layout depth)) := by
  induction items with
  | nil => exact .ok .nil
  | cons item rest ih =>
    rw [List.mapM_cons]
    cases hmembers : item.fields? with
    | none =>
      rw [encodeSlot, hmembers]
      exact .error _
    | some members =>
      rw [encodeSlot, hmembers, List.filterMap_cons_some hmembers, List.map_cons]
      exact ih.bind fun slots slots' hslots => .ok (.slot ⟨layout, members, depth⟩ hslots)

/-- An array is encoded alike, if structs are. -/
theorem alike_encodeItems (hinner : StructsAlike plan o o' inner inner')
    (harray : f.format.isArray = true) (items : List Value) (start : Nat) :
    SpellAlike o o' ((Value.array items).strands plan.struct? f)
      (encodeItems ⟨plan, o⟩ inner depth f start items)
      (encodeItems ⟨plan, o'⟩ inner' depth f start items) := by
  rcases format_of_isArray harray with ⟨e, hformat⟩ | hformat | hformat
  · have hdirect : f.format ≠ .refStructArray := by simp [hformat]
    rw [encodeItems, encodeItems, hformat, strands_items hdirect]
    exact (alike_encode_elements plan.struct? e items f).bind fun _ _ hparts => .ok hparts
  · have hdirect : f.format ≠ .refStructArray := by simp [hformat]
    rw [encodeItems, encodeItems, hformat, strands_items hdirect]
    refine Alike.bind_same fun layout hlayout => ?_
    obtain ⟨t, htype, ht⟩ := structOf_eq_ok.1 hlayout
    exact alike_encodeStructs hinner htype ht items start
  · rw [encodeItems, encodeItems, hformat]
    refine Alike.bind_same fun layout hlayout => ?_
    obtain ⟨t, htype, ht⟩ := structOf_eq_ok.1 hlayout
    rw [strands_slots hformat htype ht]
    exact alike_encodeSlots items

/-- **A value is encoded alike**, if structs are. -/
theorem alike_encodeValue (hinner : StructsAlike plan o o' inner inner') (siblings : Fields)
    (start : Nat) (v : Value) :
    SpellAlike o o' (v.strands plan.struct? f)
      (encodeValue ⟨plan, o⟩ inner depth f siblings start v)
      (encodeValue ⟨plan, o'⟩ inner' depth f siblings start v) := by
  rw [encodeValue, encodeValue]
  split
  · next e _ =>
    exact (alike_encode_element plan.struct? e v f).bind fun _ _ hbytes => .ok hbytes
  · split
    · next harray =>
      split
      · exact .error _
      · next items hitems =>
        cases items?_eq_some.1 hitems
        exact Alike.bind_same fun _ _ => alike_encodeItems hinner harray items start
    · split
      · exact .error _
      · next members hmembers =>
        cases fields?_eq_some.1 hmembers
        refine Alike.bind_same fun layout hlayout => ?_
        obtain ⟨t, htype, ht⟩ := structOf_eq_ok.1 hlayout
        rw [strands_struct htype ht]
        exact hinner layout members start

/-! ## Fields and structs -/

/-- A header goes in front of what it is the header of. -/
theorem alike_encodeHeader (f : PlacedField) {strands : List (Strand Remote)}
    {left right : List Piece} (h : Spelled o o' strands left right) :
    Alike (fun header header' => Spelled o o' (f.withHeader strands)
        (Piece.ofBytes header ++ left) (Piece.ofBytes header' ++ right))
      (encodeHeader ⟨plan, o⟩ f (Strand.sizes strands))
      (encodeHeader ⟨plan, o'⟩ f (Strand.sizes strands)) := by
  rw [encodeHeader, encodeHeader, PlacedField.withHeader]
  split
  · exact .ok h
  · split
    · exact .ok (.raw [f.tag?.getD 0] (.number 2 _ h))
    · exact .error _

/-- **Fields are encoded alike**, if structs are. The induction is on the fields; both encoders stand
at the same place and know the same. -/
theorem alike_encodeFields (hinner : StructsAlike plan o o' inner inner') (values : Fields)
    (base : Nat) (endOffset : Offset) (fields : List PlacedField) (place : Nat) (known : Known) :
    SpellAlike o o' (listStrands plan.struct? fields values)
      (encodeFields ⟨plan, o⟩ inner depth values base endOffset place known fields)
      (encodeFields ⟨plan, o'⟩ inner' depth values base endOffset place known fields) := by
  induction fields generalizing place known with
  | nil =>
    rw [encodeFields, encodeFields]
    exact Alike.bind_same fun _ _ => .ok .nil
  | cons f rest ih =>
    rw [encodeFields, encodeFields]
    refine Alike.bind_same fun holds hholds => ?_
    cases holds with
    | false =>
      rw [listStrands_cons_of_absent hholds]
      exact ih place _
    | true =>
      rw [if_pos rfl, if_pos rfl]
      split
      · exact .error _
      · next v hv =>
        rw [listStrands_cons_of_present hholds hv]
        refine Alike.bind_same fun _ _ => ?_
        refine (alike_encodeValue hinner values _ v).bind fun pieces pieces' hpieces => ?_
        rw [hpieces.size_left, hpieces.size_right]
        refine (alike_encodeHeader f hpieces).bind fun header header' hwhole => ?_
        refine (ih _ _).bind fun others others' hothers => ?_
        exact spellAlike_ok_append hwhole hothers

end Values

/-- **Structs are encoded alike.** The induction is on how deep structs nest. -/
theorem structsAlike_encodeStruct (plan : Plan) (o o' : ByteOrder) (depth : Nat) :
    StructsAlike plan o o' (encodeStruct ⟨plan, o⟩ depth) (encodeStruct ⟨plan, o'⟩ depth) := by
  induction depth with
  | zero => exact fun _ _ _ => .error _
  | succ depth ih =>
    intro layout members start
    exact alike_encodeFields ih members start _ layout.members start _

/-! ## Levels -/

/-- The elements of slots are encoded alike, at the places of the structs that they are. -/
theorem alike_encodePointees (ps : List Pointee) (start : Nat) :
    Alike (fun found found' =>
        found.1 = Remote.places plan.struct? start (ps.map Pointee.remote) ∧
        found'.1 = found.1 ∧
        Spelled o o' ((ps.map Pointee.remote).flatMap (Remote.strands plan.struct?)) found.2
          found'.2)
      (encodePointees ⟨plan, o⟩ start ps) (encodePointees ⟨plan, o'⟩ start ps) := by
  induction ps generalizing start with
  | nil => exact .ok ⟨rfl, rfl, .nil⟩
  | cons p ps ih =>
    rw [encodePointees, encodePointees]
    split
    · refine (structsAlike_encodeStruct plan o o' p.depth p.layout p.values start).bind
        fun pieces pieces' hpieces => ?_
      rw [hpieces.size_left, hpieces.size_right]
      refine (ih _).bind fun found found' hfound => ?_
      obtain ⟨hplaces, hsame, hspelled⟩ := hfound
      refine .ok ⟨?_, ?_, hpieces.append hspelled⟩
      · exact congrArg (start :: ·) hplaces
      · exact congrArg (start :: ·) hsame
    · exact .error _

/-- The levels of elements are encoded alike. The induction is on their number. -/
theorem alike_encodeLevels (levels : Nat) (ps : List Pointee) (start : Nat) :
    Alike (fun found found' =>
        found.1 = Remote.places plan.struct? start
          (Remote.behind plan.struct? levels (ps.map Pointee.remote)) ∧
        found'.1 = found.1 ∧
        Spelled o o' ((Remote.behind plan.struct? levels (ps.map Pointee.remote)).flatMap
          (Remote.strands plan.struct?)) found.2 found'.2)
      (encodeLevels ⟨plan, o⟩ levels start ps) (encodeLevels ⟨plan, o'⟩ levels start ps) := by
  induction levels generalizing ps start with
  | zero =>
    cases ps with
    | nil => exact .ok ⟨rfl, rfl, .nil⟩
    | cons p ps => exact .error _
  | succ levels ih =>
    cases ps with
    | nil =>
      rw [List.map_nil, Remote.behind_nil]
      exact .ok ⟨rfl, rfl, .nil⟩
    | cons p ps =>
      refine (alike_encodePointees (p :: ps) start).bind fun found found' hfound => ?_
      obtain ⟨places, pieces⟩ := found
      obtain ⟨places', pieces'⟩ := found'
      obtain ⟨rfl, rfl, hspelled⟩ := hfound
      dsimp only at hspelled ⊢
      rw [hspelled.size_left, hspelled.size_right, ← hspelled.pointees_eq]
      refine (ih _ _).bind fun deeper deeper' hdeeper => ?_
      obtain ⟨hplaces, hsame, hothers⟩ := hdeeper
      rw [hspelled.remotes] at hplaces hothers
      refine .ok ⟨?_, ?_, ?_⟩
      · rw [Remote.behind, Remote.places_append, hplaces]
      · rw [hsame]
      · rw [Remote.behind, List.flatMap_append]
        exact hspelled.append hothers

/-- **A container is encoded alike**, to its strands. -/
theorem alike_encode (plan : Plan) (o o' : ByteOrder) (container : ContainerLayout)
    (values : Fields) :
    Alike (fun bytes bytes' => bytes = Strand.render o (plan.strands container values) ∧
        bytes' = Strand.render o' (plan.strands container values))
      (encode ⟨plan, o⟩ container values) (encode ⟨plan, o'⟩ container values) := by
  refine (alike_encodeFields (structsAlike_encodeStruct plan o o' plan.structs.length) values 0
    container.endOffset container.fields 0 .nothing).bind fun inline inline' hinline => ?_
  rw [hinline.size_left, hinline.size_right, ← hinline.pointees_eq]
  refine (alike_encodeLevels plan.structs.length _ _).bind fun found found' hfound => ?_
  obtain ⟨places, behind⟩ := found
  obtain ⟨places', behind'⟩ := found'
  obtain ⟨rfl, rfl, hbehind⟩ := hfound
  rw [hinline.remotes] at hbehind ⊢
  have hall := hinline.append hbehind
  exact .ok ⟨hall.fill_left _, hall.fill_right _⟩

end Codec

/-- The strands of a container are those of the fields before a field, then its own, then the
others, with places in the slots of all. -/
theorem Plan.exists_strands_append (plan : Plan) {container : ContainerLayout} (values : Fields)
    {before rest : List PlacedField} {f : PlacedField}
    (h : container.fields = before ++ f :: rest) :
    ∃ front own back, plan.strands container values = front ++ own ++ back ∧
      Strand.sizes front = Strand.sizes (listStrands plan.struct? before values) ∧
      ∃ places, own = Strand.settle places (listStrands plan.struct? [f] values) := by
  have hfields : listStrands plan.struct? container.fields values =
      listStrands plan.struct? before values ++ (listStrands plan.struct? [f] values ++
        listStrands plan.struct? rest values) := by
    rw [h, listStrands_append, ← List.singleton_append, listStrands_append]
  rw [strands]
  generalize hplaces : Remote.places _ _ _ = places
  rw [hfields, List.append_assoc, Strand.settle_append, List.append_assoc, Strand.settle_append]
  refine ⟨_, _, _, (List.append_assoc _ _ _).symm, Strand.sizes_settle _ _, _, rfl⟩

/-- **The byte order only turns numbers around.** In every plan, for every container and all values,
encoding fails in both byte orders with the same error, or it gives in each the strands of the
container, which do not depend on it. These are of the same length in both orders; the fields that
are there stand at the same places; and turning around the bytes of each integer, of the length in
front of each string, of the length in each header and of each slot makes one encoding the other,
while tags, identifiers, addresses and texts stay. -/
theorem encode_in_orders (plan : Plan) (container : ContainerLayout) (values : Fields) :
    (∃ e, ∀ order, Codec.encode ⟨plan, order⟩ container values = .error e) ∨
    let strands := plan.strands container values
    (∀ order, Codec.encode ⟨plan, order⟩ container values = .ok (Strand.render order strands)) ∧
      (∀ order, (Strand.render order strands).length = Strand.sizes strands) ∧
      (∀ order, Strand.turn strands (Strand.render order strands) =
        Strand.render order.other strands) ∧
      ∀ before f rest, container.fields = before ++ f :: rest →
        ∃ front own back : List (Strand Nat),
          (∃ places, own = Strand.settle places (listStrands plan.struct? [f] values)) ∧
          ∀ order, Strand.render order strands = Strand.render order front ++
              Strand.render order own ++ Strand.render order back ∧
            (Strand.render order front).length =
              Strand.sizes (listStrands plan.struct? before values) ∧
            (Strand.render order own).length =
              Strand.sizes (listStrands plan.struct? [f] values) := by
  have halike := fun order => Codec.alike_encode plan .big order container values
  cases hbig : Codec.encode ⟨plan, .big⟩ container values with
  | error e =>
    rw [hbig] at halike
    exact .inl ⟨e, fun order => (halike order).eq_error⟩
  | ok bytes =>
    rw [hbig] at halike
    refine .inr ⟨fun order => ?_, fun order => Strand.length_render order _,
      fun order => Strand.turn_render order _, fun before f rest hfields => ?_⟩
    · obtain ⟨bytes', hencode, -, hbytes⟩ := (halike order).exists_eq_ok
      rw [hencode, hbytes]
    · obtain ⟨front, own, back, hstrands, hfront, hown⟩ :=
        plan.exists_strands_append values hfields
      refine ⟨front, own, back, hown, fun order => ⟨?_, ?_, ?_⟩⟩
      · rw [hstrands, Strand.render_append, Strand.render_append]
      · rw [Strand.length_render, hfront]
      · obtain ⟨places, rfl⟩ := hown
        rw [Strand.length_render, Strand.sizes_settle]

/-- In the other byte order the places of two trees and of their three leaves are turned around, and
nothing else. -/
example : Strand.render .big (forestPlan.strands forestContainer forestValues) =
    [2, 0, 0, 0, 9, 0, 0, 0, 14, 1, 0, 0, 0, 23, 2, 0, 0, 0, 24, 0, 0, 0, 25, 7, 8, 9] := by
  decide +kernel

end WirePlan
