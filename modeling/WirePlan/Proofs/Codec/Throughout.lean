import WirePlan.Proofs.Layout.LaidOut
import WirePlan.Value.Basic

/-!
# Values as deep as they go

The entries of a dictionary hold structs, alone or in arrays, and these are dictionaries again, for
the members of their types. What holds of every entry of a dictionary and of every entry inside
holds `Throughout` it; where not all fields are gone into, of what is reached through the others.
A format says by itself what its values look like, down to the items of arrays but not into structs
(`Format.Admits`).
-/

namespace WirePlan

/-! ## What formats admit -/

/-- A value of the element format. -/
def Element.Admits : Element → Value → Prop
  | .int i, .int j _ => i = j
  | .uuid, .uuid _ | .string, .string _ | .ipv4, .ipv4 _ | .ipv6, .ipv6 _ => True
  | _, _ => False

/-- A value of the constructor that the format demands, with items of the constructor that it
demands of them. -/
def Format.Admits : Format → Value → Prop
  | .array e, .array items => ∀ item ∈ items, e.Admits item
  | .structArray, .array items | .refStructArray, .array items =>
    ∀ item ∈ items, ∃ members, item = .struct members
  | .struct, .struct _ | .refStruct, .struct _ => True
  | format, v => ∃ e, format.scalar? = some e ∧ e.Admits v

/-- The structs that a value consists of: itself, or the items of an array. -/
def Value.structs : Value → List Fields
  | .struct members => [members]
  | .array items => items.filterMap Value.fields?
  | .int .. | .uuid _ | .string _ | .ipv4 _ | .ipv6 _ => []

theorem Value.mem_structs {v : Value} {members : Fields} :
    members ∈ v.structs ↔
      v = .struct members ∨ ∃ items, v = .array items ∧ .struct members ∈ items := by
  cases v with
  | struct fields => simp [structs, eq_comm]
  | array items =>
    have hfields : ∀ item : Value, item.fields? = some members ↔ item = .struct members := by
      intro item
      cases item <;> simp [fields?]
    simp [structs, List.mem_filterMap, hfields]
  | int | uuid | string | ipv4 | ipv6 => simp [structs]

/-- A value without parts is no array and holds no struct. -/
theorem Element.Admits.flat {e : Element} {v : Value} (h : e.Admits v) :
    v.structs = [] ∧ ∀ items, v ≠ .array items := by
  cases v with
  | struct | array => cases e <;> cases h
  | int | uuid | string | ipv4 | ipv6 =>
    refine ⟨rfl, fun items hsame => ?_⟩
    cases hsame

/-- A format without parts admits the values of its shape. -/
theorem Format.admits_of_scalar? {format : Format} {e : Element} (h : format.scalar? = some e)
    {v : Value} : format.Admits v ↔ e.Admits v := by
  cases format with
  | array | struct | refStruct | structArray | refStructArray => cases h
  | int | uuid | string | ipv4 | ipv6 | refIpv4 | refIpv6 => cases h; simp [Admits, scalar?]

/-- Only formats of arrays admit arrays. -/
theorem Format.Admits.isArray {format : Format} {items : List Value}
    (h : format.Admits (.array items)) : format.isArray = true := by
  cases format with
  | array | structArray | refStructArray => rfl
  | struct | refStruct =>
    obtain ⟨e, he, -⟩ := h
    cases he
  | int | uuid | string | ipv4 | ipv6 | refIpv4 | refIpv6 =>
    obtain ⟨e, -, he⟩ := h
    exact absurd rfl (he.flat.2 items)

/-- Formats of arrays admit nothing else. -/
theorem Format.Admits.exists_items {format : Format} {v : Value} (h : format.Admits v)
    (harray : format.isArray = true) : ∃ items, v = .array items := by
  cases v with
  | array items => exact ⟨items, rfl⟩
  | int | uuid | string | ipv4 | ipv6 | struct =>
    cases format with
    | array | structArray | refStructArray =>
      obtain ⟨e, he, -⟩ := h
      cases he
    | int | uuid | string | ipv4 | ipv6 | refIpv4 | refIpv6 | struct | refStruct => cases harray

/-- Formats of single structs admit nothing else. -/
theorem Format.Admits.exists_members {format : Format} {v : Value} (h : format.Admits v)
    (hsingle : format = .struct ∨ format = .refStruct) : ∃ members, v = .struct members := by
  cases v with
  | struct members => exact ⟨members, rfl⟩
  | int | uuid | string | ipv4 | ipv6 | array =>
    rcases hsingle with rfl | rfl
    all_goals
      obtain ⟨e, he, -⟩ := h
      cases he

/-! ## Throughout a dictionary -/

/-- Something holds of every entry of a dictionary for these fields, of every entry of the structs
in those that are gone into, and so on. -/
inductive Throughout (structs : StructLayouts) (into : PlacedField → Prop)
    (holds : PlacedField → (siblings : Fields) → Value → Prop) :
    List PlacedField → Fields → Prop where
  | intro {fields : List PlacedField} {values : Fields}
      (here : ∀ f ∈ fields, ∀ v, values.find? f.name = some v → holds f values v)
      (inside : ∀ f ∈ fields, into f → ∀ v, values.find? f.name = some v →
        ∀ members ∈ v.structs, ∀ t layout, f.structType? = some t → structs t = some layout →
        Throughout structs into holds layout.members members) :
      Throughout structs into holds fields values

/-- Something holds of every entry of a dictionary for these fields and of every entry inside. -/
abbrev Everywhere (structs : StructLayouts)
    (holds : PlacedField → (siblings : Fields) → Value → Prop) :
    List PlacedField → Fields → Prop :=
  Throughout structs (fun _ => True) holds

/-- Something holds of every entry of a dictionary for these fields and of every entry inside,
except inside indirect arrays. -/
abbrev Inline (structs : StructLayouts)
    (holds : PlacedField → (siblings : Fields) → Value → Prop) :
    List PlacedField → Fields → Prop :=
  Throughout structs (·.isIndirect = false) holds

section

variable {structs : StructLayouts} {into into' : PlacedField → Prop}
  {holds holds' : PlacedField → Fields → Value → Prop} {fields : List PlacedField} {values : Fields}

/-- What holds throughout a dictionary holds of each of its entries and throughout what is inside.
-/
theorem throughout_iff :
    Throughout structs into holds fields values ↔
      ∀ f ∈ fields, ∀ v, values.find? f.name = some v → holds f values v ∧
        (into f → ∀ members ∈ v.structs, ∀ t layout, f.structType? = some t →
          structs t = some layout → Throughout structs into holds layout.members members) := by
  constructor
  · rintro ⟨here, inside⟩ f hf v hv
    exact ⟨here f hf v hv, fun hinto => inside f hf hinto v hv⟩
  · intro h
    exact .intro (fun f hf v hv => (h f hf v hv).1) fun f hf hinto v hv => (h f hf v hv).2 hinto

/-- What holds throughout holds of less, and where less is gone into. -/
theorem Throughout.mono (h : Throughout structs into holds fields values)
    (hinto : ∀ f, into' f → into f)
    (hholds : ∀ f siblings v, holds f siblings v → holds' f siblings v) :
    Throughout structs into' holds' fields values := by
  induction h with
  | intro here _ ih =>
    exact .intro (fun f hf v hv => hholds f _ v (here f hf v hv))
      fun f hf hf' v hv => ih f hf (hinto f hf') v hv

end

end WirePlan
