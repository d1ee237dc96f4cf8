import WirePlan.Proofs.Codec.Declared
import WirePlan.Proofs.Codec.Queue
import WirePlan.Proofs.Codec.Wrapping
import WirePlan.Proofs.Plan.Dependencies
import WirePlan.Proofs.Plan.Depth

/-!
# Sample values are as declared

Sample values are made in two passes. The first gives every size field that arrays name a number
from one to three, which stands in a byte (`Sample.exists_lookup_lengths`). The second makes the
value of each field: an array looks its size field up and has as many items, and the size field,
which is a number without sign, looks itself up and has that number, so both agree however many
arrays share the field (`Sample.declares_field`). Structs are made alike, and none nests deeper than
there are structs (`Sample.exists_whole_struct`). So sample values are everywhere as declared, and
the encoder does not refuse them for what they are (`asDeclared_sample`).
-/

namespace WirePlan

/-! ## What counts in the lists of a plan -/

/-- Every array names a sibling that holds a number without sign. -/
def Counted (fields : List PlacedField) : Prop :=
  ∀ f ∈ fields, f.format.isArray = true →
    ∃ g ∈ fields, f.sizeField? = some g.name ∧ ∃ k, g.format = .int k ∧ k.isSigned = false

theorem Arranged.counted {structNames declared : List String} {fields : List PlacedField}
    (h : Arranged structNames declared fields)
    (hsized : ∀ f ∈ fields, f.format.isArray = true → f.sizeField?.isSome) : Counted fields := by
  intro f hf harray
  obtain ⟨size, hsize⟩ := Option.isSome_iff_exists.1 (hsized f hf harray)
  obtain ⟨i, hi⟩ := List.mem_iff_getElem?.1 hf
  obtain ⟨g, hg, rfl, k, hk, hunsigned⟩ := h.counter i f size hi hsize
  exact ⟨g, List.mem_of_mem_take hg, hsize, k, hk, hunsigned⟩

/-- In every list of the plan of a source arrays are counted by siblings. -/
theorem Plan.counted_ofSource {source : String} {options : Options} {plan : Plan}
    (h : ofSource source options = .ok plan) :
    (∀ m ∈ plan.messages, ∀ c ∈ m.containers, Counted c.fields) ∧
      ∀ t layout, plan.struct? t = some layout → Counted layout.members := by
  have hwellFormed := wellFormed_ofSource h
  rw [Plan.ofSource_eq] at h
  obtain ⟨schema, hschema, hplan⟩ := bind_eq_ok.1 h
  obtain ⟨declarations, -, hschema⟩ := bind_eq_ok.1 hschema
  obtain ⟨e, -, hschema⟩ := bind_eq_ok.1 hschema
  have harranged := arranged_ofExpanded hschema hplan
  constructor
  · intro m hm c hc
    obtain ⟨_, -, -, hcontainers⟩ := exists_of_mem_right harranged.messages hm
    obtain ⟨_, -, -, hfields⟩ := exists_of_mem_right hcontainers hc
    exact hfields.counted fun f hf => (hwellFormed.containers m hm c hc).counted hf
  · intro t layout ht
    obtain ⟨_, -, -, hmembers⟩ :=
      exists_of_mem_right harranged.structs (List.mem_of_find?_eq_some ht)
    exact hmembers.counted fun f hf => (hwellFormed.structs ht).members.counted hf

namespace Sample

/-! ## Numbers of elements -/

/-- Every size field that an array names has a number of elements, which stands in a byte. -/
theorem exists_lookup_lengths (seed : UInt64) {fields : List PlacedField} {f : PlacedField}
    (hf : f ∈ fields) {size : String} (hsize : f.sizeField? = some size) (index : Nat) :
    ∃ n, List.lookup size (lengths seed index fields) = some n ∧ n.toNat < 256 := by
  induction fields generalizing index with
  | nil => cases hf
  | cons g rest ih =>
    have hrest (hmem : f ∈ rest) := ih hmem (index + 1)
    rw [lengths]
    split
    · next first hfirst =>
      rw [List.lookup_cons]
      by_cases hname : size = first
      · have hsmall : (1 + (seed + .ofNat index) % 3 : UInt64).toNat < 256 := by
          rw [UInt64.toNat_add, UInt64.toNat_mod, show (1 : UInt64).toNat = 1 from rfl,
            show (3 : UInt64).toNat = 3 from rfl]
          omega
        exact ⟨_, by simp [hname], hsmall⟩
      · have hmem : f ∈ rest := by
          rcases List.mem_cons.1 hf with rfl | hmem
          · cases hsize.symm.trans hfirst
            exact absurd rfl hname
          · exact hmem
        rw [beq_eq_false_iff_ne.2 hname]
        exact hrest hmem
    · next hnone =>
      refine hrest ?_
      rcases List.mem_cons.1 hf with rfl | hmem
      · cases hsize.symm.trans hnone
      · exact hmem

/-- A number that stands in a byte is the number of any integer without sign made from it. -/
theorem natural?_ofNat {k : IntFormat} (hunsigned : k.isSigned = false) {n : Nat} (h : n < 256) :
    (Value.ofNat k n).natural? = some n := by
  have hbits : 256 ≤ 2 ^ k.bits := by cases k <;> decide
  simp only [Value.ofNat, Value.natural?, hunsigned, Bool.false_eq_true, if_false,
    BitVec.toNat_ofNat, Option.some.injEq]
  exact Nat.mod_eq_of_lt (h.trans_le hbits)

/-! ## The value of a field -/

@[simp] theorem length_items (count : Nat) (n : UInt64) (item : UInt64 → Value) :
    (items count n item).length = count := by
  simp [items]

theorem exists_of_mem_items {count : Nat} {n : UInt64} {item : UInt64 → Value} {v : Value}
    (h : v ∈ items count n item) : ∃ k, v = item k := by
  obtain ⟨k, -, rfl⟩ := List.mem_map.1 h
  exact ⟨_, rfl⟩

theorem admits_element (name : String) (n : UInt64) (e : Element) : e.Admits (element name n e) := by
  cases e with
  | int i => rfl
  | uuid | string | ipv4 | ipv6 => trivial

section Field

variable {plan : Plan} {made : Option String → UInt64 → Value} {seed : UInt64}
  {fields : List PlacedField} {values : Fields} {f : PlacedField}

/-- A value without parts is made of the format. -/
theorem admits_field {e : Element} (hscalar : f.format.scalar? = some e)
    (lengths : List (String × UInt64)) (n : UInt64) : e.Admits (field lengths made f n) := by
  unfold field
  cases hformat : f.format with
  | int i =>
    cases hformat ▸ hscalar
    exact admits_element f.name _ (.int i)
  | uuid | string | ipv4 | ipv6 | refIpv4 | refIpv6 =>
    cases hformat ▸ hscalar
    exact admits_element f.name n _
  | array | struct | refStruct | structArray | refStructArray => cases hformat ▸ hscalar

/-- Next to values made with the same numbers of elements, an array is counted as it is made. -/
theorem countOf_eq (hcounted : Counted fields)
    (hvalues : ∀ g ∈ fields, ∃ n,
      values.find? g.name = some (field (lengths seed 0 fields) made g n))
    (hf : f ∈ fields) (harray : f.format.isArray = true) :
    Codec.countOf f values = .ok
      ((f.sizeField?.bind fun s => List.lookup s (lengths seed 0 fields)).getD 0).toNat := by
  obtain ⟨g, hg, hsize, k, hk, hunsigned⟩ := hcounted f hf harray
  obtain ⟨count, hlookup, hsmall⟩ := exists_lookup_lengths seed hf hsize 0
  obtain ⟨n, hvalue⟩ := hvalues g hg
  rw [field, hk] at hvalue
  dsimp only at hvalue
  refine Codec.countOf_eq_ok.2 ?_
  rw [Codec.sizeField, hsize, Option.getD_some, hvalue, hlookup]
  simp [natural?_ofNat hunsigned hsmall, hlookup]

/-- Structs of the types that the fields name are made whole. -/
def MakesWhole (plan : Plan) (made : Option String → UInt64 → Value) (fields : List PlacedField) :
    Prop :=
  ∀ f ∈ fields, ∀ t layout, f.structType? = some t → plan.struct? t = some layout → ∀ n,
    Codec.IsStruct (Whole plan.struct? layout) (made f.structType? n)

/-- **The value of a field is as the field declares**, next to values made with the same numbers of
elements. -/
theorem declares_field (hcounted : Counted fields) (hmade : MakesWhole plan made fields)
    (hsized : ∀ f ∈ fields, SizeFits plan.struct? f.toField f.size)
    (hvalues : ∀ f ∈ fields, ∃ n,
      values.find? f.name = some (field (lengths seed 0 fields) made f n))
    (hf : f ∈ fields) (n : UInt64) :
    Declares plan.struct? f values (field (lengths seed 0 fields) made f n) := by
  cases hscalar : f.format.scalar? with
  | some e => exact declares_of_scalar hscalar (admits_field hscalar _ n)
  | none =>
    cases harray : f.format.isArray with
    | true =>
      have hcount := countOf_eq hcounted hvalues hf harray
      have hstructs (hformat : f.format = .structArray ∨ f.format = .refStructArray) :
          ∀ count, Codec.countOf f values = .ok count →
            Declares plan.struct? f values (.array (items count n (made f.structType?))) := by
        intro count hcount
        obtain ⟨t, layout, htype, ht⟩ :=
          (hsized f hf).exists_layout (by rcases hformat with heq | heq <;> rw [heq] <;> rfl)
        refine Codec.declares_of_isStruct (c := ⟨plan, .little⟩) hformat htype ht
          (by rwa [length_items]) fun v hv => ?_
        obtain ⟨k, rfl⟩ := exists_of_mem_items hv
        exact hmade f hf t layout htype ht k
      rw [field]
      rcases Codec.format_of_isArray harray with ⟨e, hformat⟩ | hformat | hformat
      · rw [hformat]
        refine declares_of_elements hformat (by rwa [length_items]) fun v hv => ?_
        obtain ⟨k, rfl⟩ := exists_of_mem_items hv
        exact admits_element f.name k e
      · rw [hformat]
        exact hstructs (.inl hformat) _ hcount
      · rw [hformat]
        exact hstructs (.inr hformat) _ hcount
    | false =>
      have hformat := Codec.format_of_single hscalar harray
      obtain ⟨t, layout, htype, ht⟩ := (hsized f hf).exists_layout (by
        rcases hformat with heq | heq <;> rw [heq] <;> rfl)
      obtain ⟨members, hmembers, hwhole⟩ := hmade f hf t layout htype ht n
      have hfield : field (lengths seed 0 fields) made f n = .struct members := by
        rw [field]
        rcases hformat with heq | heq <;> rw [heq] <;> exact hmembers
      rw [hfield]
      exact declares_of_whole hformat htype ht hwhole

end Field

/-! ## Lists and structs -/

section List

variable {seed : UInt64} {counts : List (String × UInt64)} {made : Option String → UInt64 → Value}
  {fields : List PlacedField}

/-- Making the values of fields leaves the values of other names. -/
theorem find?_fieldsFrom_of_not_mem {name : String} (h : name ∉ fields.map (·.name)) (index : Nat)
    (values : Fields) :
    (fieldsFrom seed counts made index fields values).find? name = values.find? name := by
  induction fields generalizing index values with
  | nil => rfl
  | cons f rest ih =>
    rw [List.map_cons, List.mem_cons, not_or] at h
    rw [fieldsFrom, ih h.2, Keyed.find?_insert, if_neg (Ne.symm h.1)]

/-- Each field has the value made for it. -/
theorem exists_find?_fieldsFrom (hnodup : (fields.map (·.name)).Nodup) (index : Nat)
    (values : Fields) : ∀ f ∈ fields, ∃ n,
      (fieldsFrom seed counts made index fields values).find? f.name =
        some (field counts made f n) := by
  induction fields generalizing index values with
  | nil => exact fun _ hf => nomatch hf
  | cons f rest ih =>
    obtain ⟨hnew, hnodup⟩ := List.nodup_cons.1 hnodup
    refine List.forall_mem_cons.2 ⟨⟨seed * 31 + .ofNat index, ?_⟩, ih hnodup _ _⟩
    rw [fieldsFrom, find?_fieldsFrom_of_not_mem hnew, Keyed.find?_insert, if_pos rfl]

/-- The keys of the values made are the names of the fields. -/
theorem mem_keys_fieldsFrom {name : String} (index : Nat) (values : Fields) :
    name ∈ Keyed.keys (fieldsFrom seed counts made index fields values) ↔
      name ∈ fields.map (·.name) ∨ name ∈ Keyed.keys values := by
  induction fields generalizing index values with
  | nil => simp [fieldsFrom]
  | cons f rest ih =>
    rw [fieldsFrom, ih, Keyed.mem_keys_insert, List.map_cons, List.mem_cons, or_left_comm,
      or_assoc]

end List

section Plan

variable {plan : Plan}

/-- **Values made for a well-placed list are as declared**, if structs are made whole. -/
theorem declared_fieldsFrom {header : Nat} {fields : List PlacedField} {endOffset : Offset}
    (hplaced : WellPlaced plan.struct? header fields endOffset) (hcounted : Counted fields)
    {made : Option String → UInt64 → Value} (hmade : MakesWhole plan made fields) (seed : UInt64) :
    let values := fieldsFrom seed (lengths seed 0 fields) made 0 fields []
    (∀ name, name ∈ Keyed.keys values ↔ name ∈ fields.map (·.name)) ∧
      Everywhere plan.struct? (AsDeclared plan.struct?) fields values := by
  intro values
  have hvalues : ∀ f ∈ fields, ∃ n,
      values.find? f.name = some (field (lengths seed 0 fields) made f n) :=
    exists_find?_fieldsFrom hplaced.nodup 0 []
  refine ⟨fun name => ?_, everywhere_of_declares (fun f hf => hplaced.counted hf) ?_⟩
  · rw [mem_keys_fieldsFrom]
    exact or_iff_left List.not_mem_nil
  · intro f hf v hv
    obtain ⟨n, hmade'⟩ := hvalues f hf
    cases hmade'.symm.trans hv
    exact declares_field hcounted hmade hplaced.sized hvalues hf n

/-- **Structs are made whole.** The induction is on how deep structs nest. -/
theorem exists_whole_struct (hplan : plan.WellFormed)
    (hcounted : ∀ t layout, plan.struct? t = some layout → Counted layout.members) {depth : Nat}
    {t : String} {layout : StructLayout} (ht : plan.struct? t = some layout)
    (hshallow : StructLayouts.Shallow plan.struct? depth t) (seed : UInt64) :
    Codec.IsStruct (Whole plan.struct? layout) (struct plan depth (some t) seed) := by
  induction depth generalizing t layout seed with
  | zero => cases hshallow.symm.trans ht
  | succ depth ih =>
    have hmade : MakesWhole plan (struct plan depth) layout.members := by
      intro f hf t' layout' htype ht' n
      rw [htype]
      exact ih ht' (hshallow layout ht f hf t' htype) n
    obtain ⟨hkeys, hdeclared⟩ :=
      declared_fieldsFrom (hplan.structs ht).members (hcounted t layout ht) hmade seed
    refine ⟨_, ?_, hkeys, hdeclared⟩
    rw [struct, Option.bind_some, ht]

end Plan

end Sample

/-- **Sample values are as declared.** In every plan of a source, for every container and every
seed, the sample has a value for each field and for nothing else. At every depth each value is of
the constructor that its field demands, each struct has exactly the members of its type, and each
array has as many items as its size field next to it tells. So under either byte order the encoder
does not refuse the sample as if it were not what the plan declares. -/
theorem asDeclared_sample {source : String} {options : Options} {plan : Plan}
    (hplan : Plan.ofSource source options = .ok plan) {m : MessageLayout} (hm : m ∈ plan.messages)
    {container : ContainerLayout} (hcontainer : container ∈ m.containers) (seed : UInt64) :
    let values := plan.sample container.fields seed
    (∀ name, name ∈ Keyed.keys values ↔ name ∈ container.fields.map (·.name)) ∧
      Everywhere plan.struct? (AsDeclared plan.struct?) container.fields values ∧
      ∀ order e, Codec.encode ⟨plan, order⟩ container values = .error e → ¬ e.IsUndeclared := by
  rw [Plan.sample_eq]
  intro values
  have hwellFormed := Plan.wellFormed_ofSource hplan
  obtain ⟨hcontainers, hstructs⟩ := Plan.counted_ofSource hplan
  have hmade : Sample.MakesWhole plan (Sample.struct plan plan.structs.length)
      container.fields := by
    intro f hf t layout htype ht n
    rw [htype]
    exact Sample.exists_whole_struct hwellFormed hstructs ht (Plan.shallow_ofSource hplan t) n
  obtain ⟨hkeys, hdeclared⟩ := Sample.declared_fieldsFrom
    (hwellFormed.containers m hm container hcontainer) (hcontainers m hm container hcontainer)
    hmade seed
  refine ⟨hkeys, hdeclared, fun order e he => ?_⟩
  refine (Codec.takes_encode (c := ⟨plan, order⟩) hwellFormed hm hcontainer (fun f hf _ => ?_)
    hdeclared).error e he
  exact (hkeys f.name).2 (List.mem_map_of_mem hf)

/-- From the greatest seed, with which the sums wrap, a tree with three leaves is made. -/
theorem asDeclared_sample_forest :
    forestPlan.sample forestContainer.fields 0xFFFFFFFFFFFFFFFF =
        [("count", .ofNat .u8 1), ("trees", .array [treeValue [0x81, 0xA0, 0xBF]])] ∧
      Everywhere forestPlan.struct? (AsDeclared forestPlan.struct?) forestContainer.fields
        (forestPlan.sample forestContainer.fields 0xFFFFFFFFFFFFFFFF) :=
  ⟨by decide +kernel, (asDeclared_sample forestPlan_eq (.head _) (.head _) _).2.1⟩

end WirePlan
