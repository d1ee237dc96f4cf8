import WirePlan.Proofs.Codec.Steps
import WirePlan.Proofs.Codec.Throughout
import WirePlan.Text.Utf8

/-!
# What a dictionary takes on the wire

How many bytes the fields of a list take can be told from the values alone, and so can the structs
that stand behind the container for the slots in them (`Extent`). A field that has an entry takes
its header and its value; a value without parts takes the bytes of its format, a struct those of its
members, and an indirect array four for each of its items, which stand further back (`Remote`).
These have slots themselves, so there are generations of them, and they stand in this order
(`Remote.generations`).
-/

namespace WirePlan

/-- A struct that stands behind a container for a slot. -/
structure Remote where
  layout : StructLayout
  members : Fields

/-- What a part of an encoding takes: its bytes, and the structs that stand behind the container for
its slots, in the order of these. -/
structure Extent where
  size : Nat
  remotes : List Remote

namespace Extent

/-- Parts one behind the other. -/
def join (parts : List Extent) : Extent where
  size := (parts.map size).sum
  remotes := parts.flatMap remotes

@[simp] theorem join_nil : join [] = ⟨0, []⟩ := rfl

@[simp] theorem size_join_cons (e : Extent) (rest : List Extent) :
    (join (e :: rest)).size = e.size + (join rest).size := rfl

@[simp] theorem remotes_join_cons (e : Extent) (rest : List Extent) :
    (join (e :: rest)).remotes = e.remotes ++ (join rest).remotes := rfl

/-- A part behind so many bytes. -/
def behind (e : Extent) (bytes : Nat) : Extent := { e with size := bytes + e.size }

/-- A field with what its value takes, if it has one. -/
def ofField (entries : Keyed (PlacedField → Extent)) (f : PlacedField) : Extent :=
  match entries.find? f.name with
  | some value => (value f).behind f.header
  | none => join []

end Extent

mutual

/-- What the value of a field takes. -/
def Value.extent (structs : StructLayouts) : Value → PlacedField → Extent
  | .int i _, _ => ⟨i.size, []⟩
  | .uuid _, _ | .ipv6 _, _ => ⟨16, []⟩
  | .ipv4 _, _ => ⟨4, []⟩
  | .string s, f => ⟨f.lengthFormat.size + (Text.utf8Bytes s).length, []⟩
  | .array items, f =>
    match f.format, f.structType?.bind structs with
    | .refStructArray, some layout =>
      ⟨Format.slotSize * items.length, (items.filterMap Value.fields?).map (⟨layout, ·⟩)⟩
    | _, _ => .join (itemExtents structs items f)
  | .struct members, f =>
    match f.structType?.bind structs with
    | some layout => .join (layout.members.map (.ofField (entryExtents structs members)))
    | none => .join []

/-- What the items of an array take. -/
def itemExtents (structs : StructLayouts) : List Value → PlacedField → List Extent
  | [], _ => []
  | v :: rest, f => v.extent structs f :: itemExtents structs rest f

/-- What the entries of a dictionary take, depending on their fields. -/
def entryExtents (structs : StructLayouts) : Fields → Keyed (PlacedField → Extent)
  | [] => []
  | (name, v) :: rest => (name, v.extent structs) :: entryExtents structs rest

end

/-- What the fields of a list take. -/
def listExtent (structs : StructLayouts) (fields : List PlacedField) (values : Fields) : Extent :=
  .join (fields.map (.ofField (entryExtents structs values)))

/-- What a struct behind a container takes. -/
def Remote.extent (structs : StructLayouts) (r : Remote) : Extent :=
  listExtent structs r.layout.members r.members

/-- Structs behind a container, then the structs for the slots in them, and so on. -/
def Remote.generations (structs : StructLayouts) : (levels : Nat) → List Remote → List Remote
  | 0, _ => []
  | levels + 1, rs =>
    rs ++ generations structs levels (Extent.join (rs.map (Remote.extent structs))).remotes

/-! ## Sizes and slots -/

section

variable {structs : StructLayouts} {f : PlacedField} {values : Fields} {v : Value}

@[simp] theorem itemExtents_eq_map (items : List Value) :
    itemExtents structs items f = items.map (·.extent structs f) := by
  induction items with
  | nil => rfl
  | cons v rest ih => rw [itemExtents, ih, List.map_cons]

@[simp] theorem find?_entryExtents (name : String) :
    (entryExtents structs values).find? name = (values.find? name).map (Value.extent structs) := by
  induction values with
  | nil => rfl
  | cons e rest ih =>
    obtain ⟨key, v⟩ := e
    rw [entryExtents, Keyed.find?, Keyed.find?]
    split
    · rfl
    · exact ih

/-- A field that has an entry takes its header and its value. -/
theorem ofField_of_some (h : values.find? f.name = some v) :
    Extent.ofField (entryExtents structs values) f = (v.extent structs f).behind f.header := by
  rw [Extent.ofField, find?_entryExtents, h]
  rfl

/-- A field that has no entry takes nothing. -/
theorem ofField_of_none (h : values.find? f.name = none) :
    Extent.ofField (entryExtents structs values) f = .join [] := by
  rw [Extent.ofField, find?_entryExtents, h]
  rfl

/-- A struct takes what its members take. -/
theorem extent_struct {t : String} {layout : StructLayout} (htype : f.structType? = some t)
    (hlayout : structs t = some layout) (members : Fields) :
    (Value.struct members).extent structs f = listExtent structs layout.members members := by
  rw [Value.extent, htype, Option.bind_some, hlayout]
  rfl

/-- An indirect array takes a slot for each of its items. -/
theorem extent_slots {t : String} {layout : StructLayout} (hformat : f.format = .refStructArray)
    (htype : f.structType? = some t) (hlayout : structs t = some layout) (items : List Value) :
    (Value.array items).extent structs f =
      ⟨Format.slotSize * items.length, (items.filterMap Value.fields?).map (⟨layout, ·⟩)⟩ := by
  rw [Value.extent, hformat, htype, Option.bind_some, hlayout]

/-- Any other array takes what its items take. -/
theorem extent_items (hformat : f.format ≠ .refStructArray) (items : List Value) :
    (Value.array items).extent structs f = .join (items.map (·.extent structs f)) := by
  rw [Value.extent]
  split
  · next hslots _ => exact absurd hslots hformat
  · rw [itemExtents_eq_map]

/-! ## Structs behind a container -/

variable {r : Remote}

theorem Extent.mem_remotes_join {parts : List Extent} :
    r ∈ (join parts).remotes ↔ ∃ e ∈ parts, r ∈ e.remotes :=
  List.mem_flatMap

/-- A value without parts has no slots. -/
theorem Element.Admits.remotes {e : Element} (h : e.Admits v) :
    (v.extent structs f).remotes = [] := by
  cases v with
  | struct | array => cases e <;> cases h
  | int | uuid | string | ipv4 | ipv6 => rfl

/-- The slots of a list of fields are those of the values of its fields. -/
theorem mem_remotes_list {fields : List PlacedField} :
    r ∈ (listExtent structs fields values).remotes ↔
      ∃ f ∈ fields, ∃ v, values.find? f.name = some v ∧ r ∈ (v.extent structs f).remotes := by
  have hfield : ∀ f : PlacedField, r ∈ (Extent.ofField (entryExtents structs values) f).remotes ↔
      ∃ v, values.find? f.name = some v ∧ r ∈ (v.extent structs f).remotes := by
    intro f
    cases hvalue : values.find? f.name with
    | none => simp [ofField_of_none hvalue]
    | some v => simp [ofField_of_some hvalue, Extent.behind]
  simp [listExtent, Extent.mem_remotes_join, hfield]

/-- The slots of a struct are those of its members. -/
theorem mem_remotes_struct {members : Fields} :
    r ∈ ((Value.struct members).extent structs f).remotes ↔
      ∃ t layout, f.structType? = some t ∧ structs t = some layout ∧
        r ∈ (listExtent structs layout.members members).remotes := by
  constructor
  · intro h
    cases htype : f.structType? with
    | none =>
      rw [Value.extent, htype] at h
      cases h
    | some t =>
      cases hlayout : structs t with
      | none =>
        rw [Value.extent, htype, Option.bind_some, hlayout] at h
        cases h
      | some layout =>
        rw [extent_struct htype hlayout] at h
        exact ⟨t, layout, rfl, hlayout, h⟩
  · rintro ⟨t, layout, htype, hlayout, h⟩
    rwa [extent_struct htype hlayout]

/-- **The slots of a value** whose field is not indirect are those of the structs that it consists
of. -/
theorem mem_remotes_direct (h : f.format.Admits v) (hdirect : f.isIndirect = false) :
    r ∈ (v.extent structs f).remotes ↔
      ∃ members ∈ v.structs, r ∈ ((Value.struct members).extent structs f).remotes := by
  have hformat : f.format ≠ .refStructArray := by simpa [PlacedField.isIndirect] using hdirect
  cases v with
  | struct members => simp [Value.structs]
  | array items =>
    have hitems : ∀ item ∈ items, (∃ e : Element, e.Admits item) ∨
        ∃ members, item = .struct members := by
      intro item hitem
      rcases Codec.format_of_isArray h.isArray with ⟨e, he⟩ | hstructs | hslots
      · rw [he] at h
        exact .inl ⟨e, h item hitem⟩
      · rw [hstructs] at h
        exact .inr (h item hitem)
      · exact absurd hslots hformat
    rw [extent_items hformat, Extent.mem_remotes_join]
    constructor
    · rintro ⟨_, hmem, hr⟩
      obtain ⟨item, hitem, rfl⟩ := List.mem_map.1 hmem
      rcases hitems item hitem with ⟨e, he⟩ | ⟨members, rfl⟩
      · rw [he.remotes] at hr
        cases hr
      · exact ⟨members, Value.mem_structs.2 (.inr ⟨items, rfl, hitem⟩), hr⟩
    · rintro ⟨members, hmembers, hr⟩
      rcases Value.mem_structs.1 hmembers with hsame | ⟨_, hsame, hitem⟩
      · cases hsame
      · cases hsame
        exact ⟨_, List.mem_map_of_mem hitem, hr⟩
  | int | uuid | string | ipv4 | ipv6 => simp [Value.structs, Value.extent]

/-- **The slots of an indirect value** lead to the structs that it consists of. -/
theorem mem_remotes_indirect (h : f.format.Admits v) (hindirect : f.isIndirect = true) :
    r ∈ (v.extent structs f).remotes ↔
      ∃ members ∈ v.structs, ∃ t layout, f.structType? = some t ∧ structs t = some layout ∧
        r = ⟨layout, members⟩ := by
  have hformat : f.format = .refStructArray := by simpa [PlacedField.isIndirect] using hindirect
  rw [hformat] at h
  cases v with
  | array items =>
    have hitems : ∀ item ∈ items, ∃ members, item = .struct members := h
    cases hlayout : f.structType?.bind structs with
    | some layout =>
      obtain ⟨t, htype, hstruct⟩ := Option.bind_eq_some_iff.1 hlayout
      simp [extent_slots hformat htype hstruct, Value.structs, htype, hstruct, eq_comm]
    | none =>
      -- Without a layout there are no slots, and nothing in the items either.
      rw [Value.extent, hformat, hlayout, itemExtents_eq_map, Extent.mem_remotes_join]
      constructor
      · rintro ⟨_, hmem, hr⟩
        obtain ⟨item, hitem, rfl⟩ := List.mem_map.1 hmem
        obtain ⟨members, rfl⟩ := hitems item hitem
        obtain ⟨t, layout, htype, hstruct, -⟩ := mem_remotes_struct.1 hr
        rw [htype, Option.bind_some, hstruct] at hlayout
        cases hlayout
      · rintro ⟨members, -, t, layout, htype, hstruct, -⟩
        rw [htype, Option.bind_some, hstruct] at hlayout
        cases hlayout
  | struct | int | uuid | string | ipv4 | ipv6 =>
    obtain ⟨e, he, -⟩ := h
    cases he

/-! ## What holds behind a container -/

variable {holds : PlacedField → Fields → Value → Prop} {fields : List PlacedField}

/-- What holds everywhere in a dictionary holds of what a slot in it leads to. -/
theorem exists_of_mem_remotes
    (hadmits : Everywhere structs (fun f _ v => f.format.Admits v) fields values)
    (h : Everywhere structs holds fields values)
    (hr : r ∈ (listExtent structs fields values).remotes) :
    ∃ f siblings v t, holds f siblings v ∧ r.members ∈ v.structs ∧ f.structType? = some t ∧
      structs t = some r.layout ∧ Everywhere structs holds r.layout.members r.members := by
  induction h with
  | @intro fields values here inside ih =>
    obtain ⟨f, hf, v, hv, hr⟩ := mem_remotes_list.1 hr
    obtain ⟨hadmitted, hadmits⟩ := throughout_iff.1 hadmits f hf v hv
    cases hindirect : f.isIndirect with
    | true =>
      obtain ⟨members, hmembers, t, layout, htype, hlayout, rfl⟩ :=
        (mem_remotes_indirect hadmitted hindirect).1 hr
      exact ⟨f, values, v, t, here f hf v hv, hmembers, htype, hlayout,
        inside f hf trivial v hv members hmembers t layout htype hlayout⟩
    | false =>
      obtain ⟨members, hmembers, hr⟩ := (mem_remotes_direct hadmitted hindirect).1 hr
      obtain ⟨t, layout, htype, hlayout, hr⟩ := mem_remotes_struct.1 hr
      exact ih f hf trivial v hv members hmembers t layout htype hlayout
        (hadmits trivial members hmembers t layout htype hlayout) hr

namespace Remote

variable {levels : Nat} {rs rs' : List Remote}

theorem mem_generations_succ :
    r ∈ generations structs (levels + 1) rs ↔
      r ∈ rs ∨ r ∈ generations structs levels (Extent.join (rs.map (extent structs))).remotes :=
  List.mem_append

@[simp] theorem generations_nil : generations structs levels [] = [] := by
  induction levels with
  | zero => rfl
  | succ levels ih => exact ih

/-- What slots keep holds of all generations. -/
theorem forall_generations {P : Remote → Prop}
    (hstep : ∀ r, P r → ∀ r' ∈ (r.extent structs).remotes, P r') (h : ∀ r ∈ rs, P r)
    (levels : Nat) : ∀ r ∈ generations structs levels rs, P r := by
  induction levels generalizing rs with
  | zero => exact fun r hr => absurd hr List.not_mem_nil
  | succ levels ih =>
    intro r hr
    rcases mem_generations_succ.1 hr with hr | hr
    · exact h r hr
    · refine ih (fun r' hr' => ?_) r hr
      obtain ⟨_, hmem, hr'⟩ := Extent.mem_remotes_join.1 hr'
      obtain ⟨parent, hparent, rfl⟩ := List.mem_map.1 hmem
      exact hstep parent (h parent hparent) r' hr'

/-- More structs have more behind them. -/
theorem generations_subset (h : rs ⊆ rs') :
    generations structs levels rs ⊆ generations structs levels rs' := by
  induction levels generalizing rs rs' with
  | zero => exact List.Subset.refl _
  | succ levels ih =>
    intro r hr
    refine mem_generations_succ.2 ((mem_generations_succ.1 hr).imp (fun hr => h hr) fun hr => ?_)
    refine ih (fun r' hr' => ?_) hr
    obtain ⟨e, he, hr'⟩ := Extent.mem_remotes_join.1 hr'
    exact Extent.mem_remotes_join.2 ⟨e, List.map_subset _ h he, hr'⟩

end Remote

/-- **What holds everywhere holds inline and behind**, in every generation. The inductions are on
how deep the values go: behind a slot one generation more is left to look at. -/
theorem everywhere_iff_inline
    (hadmits : Everywhere structs (fun f _ v => f.format.Admits v) fields values) :
    Everywhere structs holds fields values ↔
      Inline structs holds fields values ∧
        ∀ levels,
          ∀ r ∈ Remote.generations structs levels (listExtent structs fields values).remotes,
            Inline structs holds r.layout.members r.members := by
  constructor
  · intro h
    refine ⟨h.mono (fun _ _ => trivial) fun _ _ _ => id, fun levels r hr => ?_⟩
    have hboth : ∀ r ∈ Remote.generations structs levels (listExtent structs fields values).remotes,
        Everywhere structs (fun f _ v => f.format.Admits v) r.layout.members r.members ∧
          Everywhere structs holds r.layout.members r.members := by
      refine Remote.forall_generations (fun r hr r' hr' => ?_) (fun r hr => ?_) levels
      · obtain ⟨_, _, _, _, -, -, -, -, hadmits'⟩ := exists_of_mem_remotes hr.1 hr.1 hr'
        obtain ⟨_, _, _, _, -, -, -, -, h'⟩ := exists_of_mem_remotes hr.1 hr.2 hr'
        exact ⟨hadmits', h'⟩
      · obtain ⟨_, _, _, _, -, -, -, -, hadmits'⟩ := exists_of_mem_remotes hadmits hadmits hr
        obtain ⟨_, _, _, _, -, -, -, -, h'⟩ := exists_of_mem_remotes hadmits h hr
        exact ⟨hadmits', h'⟩
    exact (hboth r hr).2.mono (fun _ _ => trivial) fun _ _ _ => id
  · rintro ⟨hinline, hbehind⟩
    induction hadmits with
    | @intro fields values hadmitted _ ih =>
      refine throughout_iff.2 fun f hf v hv => ?_
      obtain ⟨here, inside⟩ := throughout_iff.1 hinline f hf v hv
      refine ⟨here, fun _ members hmembers t layout htype hlayout => ?_⟩
      have hinner := ih f hf trivial v hv members hmembers t layout htype hlayout
      cases hindirect : f.isIndirect with
      | true =>
        have hmem : ⟨layout, members⟩ ∈ (listExtent structs fields values).remotes :=
          mem_remotes_list.2 ⟨f, hf, v, hv, (mem_remotes_indirect (hadmitted f hf v hv)
            hindirect).2 ⟨members, hmembers, t, layout, htype, hlayout, rfl⟩⟩
        have hfirst := hbehind 1 _ (Remote.mem_generations_succ.2 (.inl hmem))
        refine hinner hfirst fun levels r hr => ?_
        refine hbehind (levels + 1) r (Remote.mem_generations_succ.2 (.inr ?_))
        refine Remote.generations_subset (fun r' hr' => ?_) hr
        exact Extent.mem_remotes_join.2 ⟨_, List.mem_map_of_mem hmem, hr'⟩
      | false =>
        have hinside := inside hindirect members hmembers t layout htype hlayout
        refine hinner hinside fun levels r hr => ?_
        refine hbehind levels r (Remote.generations_subset (fun r' hr' => ?_) hr)
        exact mem_remotes_list.2 ⟨f, hf, v, hv, (mem_remotes_direct (hadmitted f hf v hv)
          hindirect).2 ⟨members, hmembers, mem_remotes_struct.2 ⟨t, layout, htype, hlayout, hr'⟩⟩⟩

end

end WirePlan
