import WirePlan.Proofs.Codec.Extent
import WirePlan.Proofs.Codec.Written

/-!
# What an encoding consists of

An encoding consists of strands: bytes that are the same in every byte order, numbers, which are
not, and slots, which hold places. They can be told from the values alone (`Value.strands`): an
integer is a number, and so are the length in front of a string and the length in a header; tags,
identifiers, addresses and texts are bytes. What stands behind the container are the structs of the
slots, generation by generation (`Remote.behind`), and from their sizes come the places that the
slots hold (`Remote.places`). So the strands of a container are settled before any byte order is
chosen (`Plan.strands`).

In either byte order strands take the same number of bytes (`Strand.length_render`), and turning the
numbers around goes from one order to the other (`Strand.turn_render`).
-/

namespace WirePlan

/-- The other byte order. -/
def ByteOrder.other : ByteOrder → ByteOrder
  | big => little
  | little => big

/-- A number in the other byte order is the number turned around. -/
theorem ByteOrder.bytes_other (o : ByteOrder) (width n : Nat) :
    o.other.bytes width n = (o.bytes width n).reverse := by
  cases o with
  | big => exact (List.reverse_reverse _).symm
  | little => rfl

/-- A part of an encoding. -/
inductive Strand (α : Type) where
  /-- Bytes that stand as they are in every byte order. -/
  | raw (bytes : List UInt8)
  | number (width n : Nat)
  /-- A place, told by what stands there. -/
  | slot (target : α)
  deriving DecidableEq

namespace Strand

variable {α : Type}

/-- The number of bytes of a strand. -/
def size : Strand α → Nat
  | raw bytes => bytes.length
  | number width _ => width
  | slot _ => Format.slotSize

/-- The number of bytes of strands one behind the other. -/
def sizes (strands : List (Strand α)) : Nat := (strands.map size).sum

/-- What stands at the place of a slot. -/
def target? : Strand α → Option α
  | raw _ | number .. => none
  | slot target => some target

/-- What the slots are for, in order. -/
def targets (strands : List (Strand α)) : List α := strands.filterMap target?

/-- The strands with places in the slots, in order. -/
def settle : (places : List Nat) → List (Strand α) → List (Strand Nat)
  | _, [] => []
  | places, raw bytes :: rest => raw bytes :: settle places rest
  | places, number width n :: rest => number width n :: settle places rest
  | place :: places, slot _ :: rest => slot place :: settle places rest
  | [], slot _ :: rest => slot 0 :: settle [] rest

/-- The bytes of a strand. -/
def bytes (order : ByteOrder) : Strand Nat → List UInt8
  | raw bytes => bytes
  | number width n => order.bytes width n
  | slot place => order.bytes Format.slotSize place

/-- The bytes of strands one behind the other. -/
def render (order : ByteOrder) (strands : List (Strand Nat)) : List UInt8 :=
  strands.flatMap (bytes order)

/-- The bytes of a strand turned around, if they stand for a number. -/
def turned : Strand Nat → List UInt8 → List UInt8
  | raw _, own => own
  | number .., own | slot _, own => own.reverse

/-- The bytes of strands one behind the other, those of each number turned around. -/
def turn : List (Strand Nat) → List UInt8 → List UInt8
  | [], bytes => bytes
  | s :: rest, bytes => s.turned (bytes.take s.size) ++ turn rest (bytes.drop s.size)

@[simp] theorem sizes_nil : sizes ([] : List (Strand α)) = 0 := rfl

@[simp] theorem sizes_cons (s : Strand α) (rest : List (Strand α)) :
    sizes (s :: rest) = s.size + sizes rest := rfl

@[simp] theorem sizes_append (xs ys : List (Strand α)) : sizes (xs ++ ys) = sizes xs + sizes ys := by
  simp [sizes]

@[simp] theorem targets_append (xs ys : List (Strand α)) :
    targets (xs ++ ys) = targets xs ++ targets ys :=
  List.filterMap_append

@[simp] theorem sizes_settle (places : List Nat) (strands : List (Strand α)) :
    sizes (settle places strands) = sizes strands := by
  induction strands generalizing places with
  | nil => cases places <;> rfl
  | cons s rest ih =>
    cases s with
    | raw | number => simp [settle, size, ih]
    | slot => cases places <;> simp [settle, size, ih]

/-- The places for slots go to the parts of a list of strands in order. -/
theorem settle_append (places : List Nat) (xs ys : List (Strand α)) :
    settle places (xs ++ ys) =
      settle places xs ++ settle (places.drop (targets xs).length) ys := by
  induction xs generalizing places with
  | nil => rfl
  | cons s xs ih =>
    cases s with
    | raw bytes => exact congrArg (raw bytes :: ·) (ih places)
    | number width n => exact congrArg (number width n :: ·) (ih places)
    | slot target =>
      cases places with
      | nil => simpa [settle] using ih []
      | cons place places => exact congrArg (slot place :: ·) (ih places)

@[simp] theorem length_bytes (order : ByteOrder) (s : Strand Nat) :
    (s.bytes order).length = s.size := by
  cases s <;> simp [bytes, size]

@[simp] theorem length_render (order : ByteOrder) (strands : List (Strand Nat)) :
    (render order strands).length = sizes strands := by
  simp [render, sizes, List.length_flatMap]

@[simp] theorem render_append (order : ByteOrder) (xs ys : List (Strand Nat)) :
    render order (xs ++ ys) = render order xs ++ render order ys :=
  List.flatMap_append

/-- **Turning the numbers around** goes from one byte order to the other. -/
theorem turn_render (order : ByteOrder) (strands : List (Strand Nat)) :
    turn strands (render order strands) = render order.other strands := by
  induction strands with
  | nil => rfl
  | cons s rest ih =>
    have htake : (render order (s :: rest)).take s.size = s.bytes order :=
      List.take_left' (length_bytes order s)
    have hdrop : (render order (s :: rest)).drop s.size = render order rest :=
      List.drop_left' (length_bytes order s)
    rw [turn, htake, hdrop, ih]
    cases s <;> simp [bytes, turned, render, ByteOrder.bytes_other]

end Strand

/-! ## The strands of values -/

/-- The strands of a value behind the header of its field. -/
def PlacedField.withHeader {α : Type} (f : PlacedField) (value : List (Strand α)) :
    List (Strand α) :=
  if f.header = 0 then value
  else .raw [f.tag?.getD 0] :: .number 2 (Strand.sizes value) :: value

/-- The strands of a field, by the entries of a dictionary. -/
def strandsOf (entries : Keyed (PlacedField → List (Strand Remote))) (f : PlacedField) :
    List (Strand Remote) :=
  match entries.find? f.name with
  | some value => f.withHeader (value f)
  | none => []

mutual

/-- The strands of the value of a field. -/
def Value.strands (structs : StructLayouts) : Value → PlacedField → List (Strand Remote)
  | .int i word, _ => [.number i.size word.toNat]
  | .uuid octets, _ => [.raw octets.val]
  | .ipv4 octets, _ => [.raw octets.val]
  | .ipv6 octets, _ => [.raw octets.val]
  | .string s, f =>
    [.number f.lengthFormat.size (Text.utf8Bytes s).length, .raw (Text.utf8Bytes s)]
  | .array items, f =>
    match f.format, f.structType?.bind structs with
    | .refStructArray, some layout =>
      (items.filterMap Value.fields?).map fun members => .slot ⟨layout, members⟩
    | _, _ => itemStrands structs items f
  | .struct members, f =>
    match f.structType?.bind structs with
    | some layout => (layout.members.filter (·.isOnWire members)).flatMap
        (strandsOf (entryStrands structs members))
    | none => []

/-- The strands of the items of an array. -/
def itemStrands (structs : StructLayouts) : List Value → PlacedField → List (Strand Remote)
  | [], _ => []
  | v :: rest, f => v.strands structs f ++ itemStrands structs rest f

/-- The strands of the entries of a dictionary, depending on their fields. -/
def entryStrands (structs : StructLayouts) :
    Fields → Keyed (PlacedField → List (Strand Remote))
  | [] => []
  | (name, v) :: rest => (name, v.strands structs) :: entryStrands structs rest

end

/-- The strands of the fields of a list that are on the wire. -/
def listStrands (structs : StructLayouts) (fields : List PlacedField) (values : Fields) :
    List (Strand Remote) :=
  (fields.filter (·.isOnWire values)).flatMap (strandsOf (entryStrands structs values))

namespace Remote

/-- The strands of a struct that stands behind a container. -/
def strands (structs : StructLayouts) (r : Remote) : List (Strand Remote) :=
  listStrands structs r.layout.members r.members

/-- Structs behind a container, then the structs for the slots in them, and so on. -/
def behind (structs : StructLayouts) : (levels : Nat) → List Remote → List Remote
  | 0, _ => []
  | levels + 1, rs =>
    rs ++ behind structs levels (Strand.targets (rs.flatMap (strands structs)))

/-- The places of structs one behind the other. -/
def places (structs : StructLayouts) : (start : Nat) → List Remote → List Nat
  | _, [] => []
  | start, r :: rest => start :: places structs (start + Strand.sizes (r.strands structs)) rest

end Remote

/-- The strands of a container: those of its fields, then those of the structs for the slots, which
hold the places of these. -/
def Plan.strands (plan : Plan) (container : ContainerLayout) (values : Fields) :
    List (Strand Nat) :=
  let inline := listStrands plan.struct? container.fields values
  let behind := Remote.behind plan.struct? plan.structs.length (Strand.targets inline)
  Strand.settle (Remote.places plan.struct? (Strand.sizes inline) behind)
    (inline ++ behind.flatMap (Remote.strands plan.struct?))

section

variable {structs : StructLayouts} {f : PlacedField} {values : Fields} {v : Value}

@[simp] theorem itemStrands_eq_flatMap (items : List Value) :
    itemStrands structs items f = items.flatMap (·.strands structs f) := by
  induction items with
  | nil => rfl
  | cons v rest ih => rw [itemStrands, ih, List.flatMap_cons]

@[simp] theorem find?_entryStrands (name : String) :
    (entryStrands structs values).find? name =
      (values.find? name).map (Value.strands structs) := by
  induction values with
  | nil => rfl
  | cons e rest ih =>
    obtain ⟨key, v⟩ := e
    rw [entryStrands, Keyed.find?, Keyed.find?]
    split
    · rfl
    · exact ih

/-- A struct has the strands of its members. -/
theorem strands_struct {t : String} {layout : StructLayout} (htype : f.structType? = some t)
    (hlayout : structs t = some layout) (members : Fields) :
    (Value.struct members).strands structs f = listStrands structs layout.members members := by
  rw [Value.strands, htype, Option.bind_some, hlayout]
  rfl

/-- An indirect array has a slot for each of its items. -/
theorem strands_slots {t : String} {layout : StructLayout} (hformat : f.format = .refStructArray)
    (htype : f.structType? = some t) (hlayout : structs t = some layout) (items : List Value) :
    (Value.array items).strands structs f =
      (items.filterMap Value.fields?).map fun members => .slot ⟨layout, members⟩ := by
  rw [Value.strands, hformat, htype, Option.bind_some, hlayout]

/-- Any other array has the strands of its items. -/
theorem strands_items (hformat : f.format ≠ .refStructArray) (items : List Value) :
    (Value.array items).strands structs f = items.flatMap (·.strands structs f) := by
  rw [Value.strands]
  split
  · next hslots _ => exact absurd hslots hformat
  · rw [itemStrands_eq_flatMap]

theorem listStrands_append (fields others : List PlacedField) :
    listStrands structs (fields ++ others) values =
      listStrands structs fields values ++ listStrands structs others values := by
  simp [listStrands]

/-- A field that is absent has no strands, whatever its value. -/
theorem listStrands_cons_of_absent (h : Prerequisite.allHold f.prerequisites values = .ok false)
    (rest : List PlacedField) :
    listStrands structs (f :: rest) values = listStrands structs rest values := by
  rw [listStrands, List.filter_cons, f.isOnWire_of_allHold h]
  rfl

/-- A field that is there has the strands of its value, behind its header. -/
theorem listStrands_cons_of_present (h : Prerequisite.allHold f.prerequisites values = .ok true)
    (hv : values.find? f.name = some v) (rest : List PlacedField) :
    listStrands structs (f :: rest) values =
      f.withHeader (v.strands structs f) ++ listStrands structs rest values := by
  have hfirst : strandsOf (entryStrands structs values) f =
      f.withHeader (v.strands structs f) := by
    rw [strandsOf, find?_entryStrands, hv]
    rfl
  rw [listStrands, List.filter_cons, f.isOnWire_of_allHold h, if_pos rfl, List.flatMap_cons,
    hfirst]
  rfl

end

/-! ## Structs behind a container -/

namespace Remote

variable {structs : StructLayouts}

@[simp] theorem behind_nil (levels : Nat) : behind structs levels [] = [] := by
  induction levels with
  | zero => rfl
  | succ levels ih => exact ih

@[simp] theorem length_places (start : Nat) (rs : List Remote) :
    (places structs start rs).length = rs.length := by
  induction rs generalizing start with
  | nil => rfl
  | cons r rest ih => simp [places, ih]

theorem places_append (start : Nat) (rs more : List Remote) :
    places structs start (rs ++ more) = places structs start rs ++
      places structs (start + Strand.sizes (rs.flatMap (strands structs))) more := by
  induction rs generalizing start with
  | nil => rfl
  | cons r rest ih => simp [places, ih, Nat.add_assoc]

end Remote

end WirePlan
