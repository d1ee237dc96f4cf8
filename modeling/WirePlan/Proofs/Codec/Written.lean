import Mathlib.Data.List.Nodup
import WirePlan.Codec.Basic
import WirePlan.Proofs.Keyed
import WirePlan.Proofs.Layout.LaidOut

/-!
# What is written of a dictionary

A caller may hand over more than a container holds: values of gated fields that are not on the wire,
members that a struct does not have. What is written is the dictionary with all of these left out
(`written`). A canonical dictionary has nothing to leave out (`Canonical`), so all of it is written
(`written_of_canonical`). A dictionary is consistent if prerequisites and counts come out the same
when only what is written of it is seen (`Consistent`).
-/

namespace WirePlan

/-- The prerequisites of the field hold. -/
def PlacedField.isOnWire (values : Fields) (f : PlacedField) : Bool :=
  match Prerequisite.allHold f.prerequisites values with
  | .ok holds => holds
  | .error _ => false

theorem PlacedField.isOnWire_of_allHold {values : Fields} {f : PlacedField} {holds : Bool}
    (h : Prerequisite.allHold f.prerequisites values = .ok holds) : f.isOnWire values = holds := by
  rw [isOnWire, h]

mutual

/-- The value without the undeclared members of the structs in it. -/
def Value.declared (structs : StructLayouts) (type? : Option String) : Value → Value
  | .struct fields =>
    match type?.bind structs with
    | some layout => .struct (declaredFields structs layout.members fields)
    | none => .struct fields
  | .array items => .array (declaredItems structs type? items)
  | .int i word => .int i word
  | .uuid b => .uuid b
  | .string s => .string s
  | .ipv4 b => .ipv4 b
  | .ipv6 b => .ipv6 b

/-- The items without the undeclared members of the structs in them. -/
def declaredItems (structs : StructLayouts) (type? : Option String) : List Value → List Value
  | [] => []
  | v :: rest => v.declared structs type? :: declaredItems structs type? rest

/-- The entries of the given fields, without the undeclared members of the structs in them. -/
def declaredFields (structs : StructLayouts) (fields : List PlacedField) : Fields → Fields
  | [] => []
  | (name, v) :: rest =>
    match fields.find? (·.name = name) with
    | some f =>
      (declaredFields structs fields rest).insert name (v.declared structs f.structType?)
    | none => declaredFields structs fields rest

end

mutual

/-- Every struct in the value has exactly the members of its type as keys. -/
def Value.Exact (structs : StructLayouts) (type? : Option String) : Value → Prop
  | .struct fields => ∀ layout, type?.bind structs = some layout →
      Keyed.Sorted fields ∧
        (∀ name, name ∈ Keyed.keys fields ↔ name ∈ layout.members.map (·.name)) ∧
        ExactFields structs layout.members fields
  | .array items => ExactItems structs type? items
  | .int .. | .uuid _ | .string _ | .ipv4 _ | .ipv6 _ => True

/-- Every struct in the items has exactly the members of its type as keys. -/
def ExactItems (structs : StructLayouts) (type? : Option String) : List Value → Prop
  | [] => True
  | v :: rest => v.Exact structs type? ∧ ExactItems structs type? rest

/-- Every struct in the entries of the given fields has exactly the members of its type as keys. -/
def ExactFields (structs : StructLayouts) (fields : List PlacedField) : Fields → Prop
  | [] => True
  | (name, v) :: rest => (∀ f ∈ fields, f.name = name → v.Exact structs f.structType?) ∧
      ExactFields structs fields rest

end

/-- The part of a dictionary that is written: the fields on the wire, with the declared members of
the structs in them. -/
def written (structs : StructLayouts) (fields : List PlacedField) (values : Fields) : Fields :=
  declaredFields structs (fields.filter (·.isOnWire values)) values

/-- A dictionary with exactly the fields on the wire as keys, and exactly the members of its type in
every struct. -/
structure Canonical (structs : StructLayouts) (fields : List PlacedField) (values : Fields) :
    Prop where
  sorted : Keyed.Sorted values
  keys : ∀ name, name ∈ Keyed.keys values ↔
    ∃ f ∈ fields, f.name = name ∧ Prerequisite.allHold f.prerequisites values = .ok true
  exactFields : ExactFields structs fields values

/-- What is written of a dictionary decides presence and counts as the dictionary does. -/
structure Consistent (structs : StructLayouts) (fields : List PlacedField) (values : Fields) :
    Prop where
  presence : ∀ f ∈ fields, Prerequisite.allHold f.prerequisites (written structs fields values) =
    Prerequisite.allHold f.prerequisites values
  count : ∀ f ∈ fields, f.isOnWire values = true → f.format.isArray = true →
    Codec.countOf f (written structs fields values) = Codec.countOf f values

variable {structs : StructLayouts} {type? : Option String}

@[simp] theorem declaredItems_eq_map (items : List Value) :
    declaredItems structs type? items = items.map (Value.declared structs type?) := by
  induction items with
  | nil => rfl
  | cons v rest ih => rw [declaredItems, ih, List.map_cons]

/-- A struct of a declared type keeps the declared members. -/
theorem declared_struct {t : String} {layout : StructLayout} (h : structs t = some layout)
    (fields : Fields) : (Value.struct fields).declared structs (some t) =
      .struct (declaredFields structs layout.members fields) := by
  rw [Value.declared, Option.bind_some, h]

@[simp] theorem natural?_declared (v : Value) :
    (v.declared structs type?).natural? = v.natural? := by
  cases v with
  | struct fields =>
    rw [Value.declared]
    split <;> rfl
  | int _ _ | uuid _ | string _ | ipv4 _ | ipv6 _ => rw [Value.declared]
  | array items => rw [Value.declared]; rfl

section DeclaredFields

variable {fields : List PlacedField}

theorem sorted_declaredFields (values : Fields) :
    Keyed.Sorted (declaredFields structs fields values) := by
  induction values with
  | nil => exact .nil
  | cons e rest ih =>
    rw [declaredFields]
    split
    · exact Keyed.sorted_insert ih _ _
    · exact ih

/-- A field is found among the declared ones if it is declared, with its value. -/
theorem find?_declaredFields (values : Fields) (name : String) :
    (declaredFields structs fields values).find? name =
      (fields.find? (·.name = name)).bind fun f =>
        (values.find? name).map (Value.declared structs f.structType?) := by
  induction values with
  | nil => cases fields.find? (·.name = name) <;> rfl
  | cons e rest ih =>
    obtain ⟨key, v⟩ := e
    rw [declaredFields]
    by_cases hkey : key = name
    · subst hkey
      rw [Keyed.find?, if_pos rfl]
      split
      · next f hf => rw [Keyed.find?_insert, if_pos rfl, hf]; rfl
      · next hf => rw [ih, hf]; rfl
    · rw [Keyed.find?, if_neg hkey]
      split
      · rw [Keyed.find?_insert, if_neg hkey, ih]
      · exact ih

end DeclaredFields

/-- An entry before all others of a dictionary in key order goes in front. -/
theorem Keyed.insert_of_sorted {α : Type} {name : String} {v : α} {rest : Keyed α}
    (h : Keyed.Sorted ((name, v) :: rest)) : Keyed.insert rest name v = (name, v) :: rest := by
  cases rest with
  | nil => rfl
  | cons e rest =>
    obtain ⟨key, w⟩ := e
    have hlt : name < key := (List.pairwise_cons.1 h).1 key (.head _)
    have hne : name ≠ key := fun heq => String.lt_irrefl key (heq ▸ hlt)
    rw [Keyed.insert, if_neg hne, if_pos hlt]

mutual

/-- A value whose structs are exact is declared throughout. -/
theorem declared_of_exact (type? : Option String) : (v : Value) → v.Exact structs type? →
    v.declared structs type? = v
  | .struct values, h => by
    rw [Value.declared]
    split
    · next layout hlayout =>
      rw [Value.Exact] at h
      obtain ⟨hsorted, hkeys, hexact⟩ := h layout hlayout
      rw [declaredFields_of_exact layout.members values hsorted
        (fun name hname => List.mem_map.1 ((hkeys name).1 hname)) hexact]
    · rfl
  | .array items, h => by
    rw [Value.Exact] at h
    rw [Value.declared, declaredItems_of_exact type? items h]
  | .int .., _ | .uuid _, _ | .string _, _ | .ipv4 _, _ | .ipv6 _, _ => by rw [Value.declared]

/-- Items whose structs are exact are declared throughout. -/
theorem declaredItems_of_exact (type? : Option String) : (items : List Value) →
    ExactItems structs type? items → declaredItems structs type? items = items
  | [], _ => by rw [declaredItems]
  | v :: rest, h => by
    rw [ExactItems] at h
    rw [declaredItems, declared_of_exact type? v h.1, declaredItems_of_exact type? rest h.2]

/-- Entries of declared fields whose structs are exact are declared throughout. -/
theorem declaredFields_of_exact (fields : List PlacedField) : (values : Fields) →
    Keyed.Sorted values → (∀ name ∈ Keyed.keys values, ∃ f ∈ fields, f.name = name) →
    ExactFields structs fields values → declaredFields structs fields values = values
  | [], _, _, _ => by rw [declaredFields]
  | (name, v) :: rest, hsorted, hkeys, h => by
    rw [ExactFields] at h
    rw [declaredFields]
    have hrest := declaredFields_of_exact fields rest (List.pairwise_cons.1 hsorted).2
      (fun key hkey => hkeys key (.tail _ hkey)) h.2
    split
    · next f hf =>
      have hname : f.name = name := by simpa using List.find?_some hf
      rw [hrest, declared_of_exact f.structType? v (h.1 f (List.mem_of_find?_eq_some hf) hname)]
      exact Keyed.insert_of_sorted hsorted
    · next hnone =>
      obtain ⟨f, hf, hname⟩ := hkeys name (.head _)
      exact absurd hname (by simpa using List.find?_eq_none.1 hnone f hf)

end

/-- Structs that are exact in the entries of some fields are so in those of fewer. -/
theorem ExactFields.mono {fields sub : List PlacedField} (hsub : ∀ f ∈ sub, f ∈ fields)
    {values : Fields} (h : ExactFields structs fields values) : ExactFields structs sub values := by
  induction values with
  | nil => trivial
  | cons e rest ih => exact ⟨fun f hf => h.1 f (hsub f hf), ih h.2⟩

/-- **All of a canonical dictionary is written.** -/
theorem written_of_canonical {fields : List PlacedField} {values : Fields}
    (h : Canonical structs fields values) : written structs fields values = values := by
  refine declaredFields_of_exact _ values h.sorted (fun name hname => ?_)
    (h.exactFields.mono fun f hf => (List.mem_filter.1 hf).1)
  obtain ⟨f, hf, rfl, hholds⟩ := (h.keys name).1 hname
  exact ⟨f, List.mem_filter.2 ⟨hf, PlacedField.isOnWire_of_allHold hholds⟩, rfl⟩

/-- Names stand once, so a field is found among those on the wire if it is one of them. -/
theorem find?_isOnWire {fields : List PlacedField} (hnames : (fields.map (·.name)).Nodup)
    {values : Fields} {f : PlacedField} (hf : f ∈ fields) :
    (fields.filter (·.isOnWire values)).find? (·.name = f.name) =
      if f.isOnWire values then some f else none := by
  have hunique : ∀ g ∈ fields, g.name = f.name → g = f :=
    fun g hg hname => List.inj_on_of_nodup_map hnames hg hf hname
  cases hfind : (fields.filter (·.isOnWire values)).find? (·.name = f.name) with
  | none =>
    rw [eq_comm, if_neg]
    intro hwire
    simpa using List.find?_eq_none.1 hfind f (List.mem_filter.2 ⟨hf, hwire⟩)
  | some g =>
    obtain ⟨hg, hwire⟩ := List.mem_filter.1 (List.mem_of_find?_eq_some hfind)
    cases hunique g hg (by simpa using List.find?_some hfind)
    rw [if_pos hwire]

/-- A field is written if it is on the wire, with its value. -/
theorem find?_written {fields : List PlacedField} (hnames : (fields.map (·.name)).Nodup)
    {values : Fields} {f : PlacedField} (hf : f ∈ fields) :
    (written structs fields values).find? f.name =
      if f.isOnWire values then (values.find? f.name).map (Value.declared structs f.structType?)
      else none := by
  rw [written, find?_declaredFields, find?_isOnWire hnames hf]
  split <;> rfl

/-- Only fields of the list are written. -/
theorem mem_of_find?_written {fields : List PlacedField} {values : Fields} {name : String}
    {v : Value} (h : (written structs fields values).find? name = some v) :
    ∃ f ∈ fields, f.name = name := by
  rw [written, find?_declaredFields] at h
  obtain ⟨f, hf, -⟩ := Option.bind_eq_some_iff.1 h
  exact ⟨f, (List.mem_filter.1 (List.mem_of_find?_eq_some hf)).1, by simpa using List.find?_some hf⟩

/-- A written entry is that of the dictionary, with declared members only. -/
theorem exists_declared_of_find?_written {fields : List PlacedField} {values : Fields}
    {name : String} (h : ((written structs fields values).find? name).isSome) :
    ∃ type?, (written structs fields values).find? name =
      (values.find? name).map (Value.declared structs type?) := by
  rw [written, find?_declaredFields] at h ⊢
  obtain ⟨v, hv⟩ := Option.isSome_iff_exists.1 h
  obtain ⟨f, hf, -⟩ := Option.bind_eq_some_iff.1 hv
  exact ⟨f.structType?, by rw [hf, Option.bind_some]⟩

/-- The count of an array is in the dictionary that tells it. -/
theorem isSome_of_countOf {f : PlacedField} {siblings : Fields} {n : Nat}
    (h : Codec.countOf f siblings = .ok n) : (siblings.find? (Codec.sizeField f)).isSome := by
  unfold Codec.countOf at h
  cases hfind : siblings.find? (Codec.sizeField f) with
  | some v => rfl
  | none =>
    rw [hfind] at h
    cases h

/-- A canonical dictionary is consistent. -/
theorem consistent_of_canonical {fields : List PlacedField} {values : Fields}
    (h : Canonical structs fields values) : Consistent structs fields values where
  presence f _ := by rw [written_of_canonical h]
  count f _ _ _ := by rw [written_of_canonical h]

/-- An array is counted alike by two dictionaries that hold its count with and without undeclared
members. -/
theorem countOf_declared {f : PlacedField} {a b : Fields}
    (h : a.find? (Codec.sizeField f) =
      (b.find? (Codec.sizeField f)).map (Value.declared structs type?)) :
    Codec.countOf f a = Codec.countOf f b := by
  rw [Codec.countOf, Codec.countOf, h]
  cases b.find? (Codec.sizeField f) with
  | none => rfl
  | some v =>
    rw [Option.map_some, Option.bind_some, Option.bind_some, natural?_declared]

section Ungated

variable {fields : List PlacedField} (hungated : ∀ f ∈ fields, f.prerequisites = [])

include hungated

/-- All of the fields are written where none is gated. -/
theorem written_of_ungated (values : Fields) :
    written structs fields values = declaredFields structs fields values := by
  have hall : fields.filter (·.isOnWire values) = fields := by
    refine List.filter_eq_self.2 fun f hf => ?_
    rw [PlacedField.isOnWire, hungated f hf]
    rfl
  rw [written, hall]

/-- A dictionary is consistent where no field is gated and arrays are counted by fields of the list.
-/
theorem consistent_of_ungated (horder : Field.InOrder [] (fields.map (·.toField)))
    (hcounted : ∀ f ∈ fields, f.format.isArray = true → f.sizeField?.isSome) (values : Fields) :
    Consistent structs fields values where
  presence f hf := by rw [hungated f hf]; rfl
  count f hf _ harray := by
    obtain ⟨size, hsize⟩ := Option.isSome_iff_exists.1 (hcounted f hf harray)
    have hdep : size ∈ f.dependencies := List.mem_append_left _ (by simp [hsize])
    obtain ⟨_, hmem, hname⟩ :=
      (horder.mem_of_dependency (List.mem_map_of_mem hf) hdep).resolve_left List.not_mem_nil
    obtain ⟨g, hg, rfl⟩ := List.mem_map.1 hmem
    have hnames := horder.nodup
    rw [List.map_map] at hnames
    have hwire : g.isOnWire values = true := by
      rw [PlacedField.isOnWire, hungated g hg]
      rfl
    have hentry : (written structs fields values).find? (Codec.sizeField f) =
        (values.find? (Codec.sizeField f)).map (Value.declared structs g.structType?) := by
      rw [Codec.sizeField, hsize, Option.getD_some, ← hname, find?_written hnames hg, if_pos hwire]
    exact countOf_declared hentry

end Ungated

end WirePlan
