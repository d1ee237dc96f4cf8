import WirePlan.Proofs.Codec.Agreement
import WirePlan.Proofs.Codec.Queue
import WirePlan.Proofs.Codec.Wrapping
import WirePlan.Proofs.Overflow
import WirePlan.Proofs.Plan.Depth
import WirePlan.Proofs.Plan.Stopping

/-!
# The sums of sampling

The number of a field is its seed times 31 plus its place and wraps on purpose. Two other kinds of
sums are made of seeds and numbers: the seed plus the place of an array, of which the number of its
elements is made, and the number of an array plus the place of an element. Where sums are checked
sampling stops at one that is no 64-bit word. Each of its steps comes to what the step comes to
where sums wrap, exactly where its sums are words (`ComesTo`); along the recursion the conditions
join to one on every list that sampling comes to, with the seed that it has there (`Sample.AllFit`).

A seed grows to no more than 31 times itself and the greatest number of fields on the way into a
struct (`Sample.Leads.le`), so small seeds stay small as deep as structs nest
(`Sample.allFit_of_le`).
-/

namespace WirePlan

namespace Sample

/-! ## Where sums are words -/

/-- The number of the field at a place. -/
def number (seed : UInt64) (i : Nat) : UInt64 := seed * 31 + .ofNat i

/-- The number of elements of an array. -/
def itemCount (lengths : List (String × UInt64)) (f : PlacedField) : Nat :=
  ((f.sizeField?.bind fun s => List.lookup s lengths).getD 0).toNat

/-- The number of structs that are made for a field of structs. -/
def partCount (lengths : List (String × UInt64)) (f : PlacedField) : Nat :=
  if f.format.isArray then itemCount lengths f else 1

/-- The sums made for a list of fields itself, without those inside its structs, are words. -/
structure SumsFit (fields : List PlacedField) (seed : UInt64) : Prop where
  /-- The seed and the place of each field with a number of elements. -/
  lengths : ∀ p ∈ fields.zipIdx, p.1.sizeField?.isSome → seed.toNat + p.2 < UInt64.size
  /-- The number of each array and the place of each of its elements. -/
  items : ∀ p ∈ fields.zipIdx, p.1.format.isArray = true →
    ∀ k < itemCount (Sample.lengths seed 0 fields) p.1,
      (number seed p.2).toNat + k < UInt64.size

/-- To make values for a list of fields with a seed is to make values for the members of the structs
in it, each with a seed of its own. -/
inductive Leads (plan : Plan) :
    List PlacedField × UInt64 → List PlacedField × UInt64 → Prop where
  | intro {fields : List PlacedField} {seed : UInt64} {f : PlacedField} {i k : Nat}
      {layout : StructLayout} (hf : (f, i) ∈ fields.zipIdx)
      (hshaped : f.format.isStructShaped = true)
      (hk : k < partCount (Sample.lengths seed 0 fields) f)
      (hlayout : f.structType?.bind plan.struct? = some layout) :
      Leads plan (fields, seed) (layout.members, number seed i + .ofNat k)

/-- All sums made for a list of fields and inside its structs are words. -/
def AllFit (plan : Plan) (fields : List PlacedField) (seed : UInt64) : Prop :=
  ∀ reached, Relation.ReflTransGen (Leads plan) (fields, seed) reached →
    SumsFit reached.1 reached.2

variable {plan : Plan}

theorem allFit_iff {fields : List PlacedField} {seed : UInt64} :
    AllFit plan fields seed ↔ SumsFit fields seed ∧
      ∀ next, Leads plan (fields, seed) next → AllFit plan next.1 next.2 := by
  constructor
  · intro h
    exact ⟨h _ .refl, fun next hnext reached hreached => h reached (.head hnext hreached)⟩
  · rintro ⟨hfits, hnext⟩ reached hreached
    rcases hreached.cases_head with rfl | ⟨next, hleads, hreached⟩
    · exact hfits
    · exact hnext next hleads reached hreached

/-- All sums made for a struct are words. -/
def StructFits (plan : Plan) (name? : Option String) (seed : UInt64) : Prop :=
  ∀ layout, name?.bind plan.struct? = some layout → AllFit plan layout.members seed

/-- All sums made for a field with this number are words. -/
def FieldFits (plan : Plan) (lengths : List (String × UInt64)) (f : PlacedField) (n : UInt64) :
    Prop :=
  (f.format.isArray = true → ∀ k < itemCount lengths f, n.toNat + k < UInt64.size) ∧
    (f.format.isStructShaped = true → ∀ k < partCount lengths f,
      StructFits plan f.structType? (n + .ofNat k))

/-- The sums of a list are those made for the numbers of elements and for each field. -/
theorem allFit_iff_fieldFits {fields : List PlacedField} {seed : UInt64} :
    AllFit plan fields seed ↔
      (∀ p ∈ fields.zipIdx, p.1.sizeField?.isSome → seed.toNat + p.2 < UInt64.size) ∧
        ∀ p ∈ fields.zipIdx, FieldFits plan (lengths seed 0 fields) p.1 (number seed p.2) := by
  rw [allFit_iff]
  constructor
  · rintro ⟨hfits, hnext⟩
    refine ⟨hfits.lengths, fun p hp => ⟨hfits.items p hp, fun hshaped k hk layout hlayout => ?_⟩⟩
    exact hnext _ (.intro hp hshaped hk hlayout)
  · rintro ⟨hlengths, hfields⟩
    refine ⟨⟨hlengths, fun p hp => (hfields p hp).1⟩, ?_⟩
    rintro _ ⟨hf, hshaped, hk, hlayout⟩
    exact (hfields _ hf).2 hshaped _ hk _ hlayout

/-! ## What sampling comes to -/

theorem comesTo_behindM (n : UInt64) (k : Nat) :
    ComesTo (behindM n k : Stopping UInt64) (n.toNat + k < UInt64.size) (n + .ofNat k) := by
  rw [← run_behindM]
  exact (comesTo_addWord n.toNat k).map UInt64.ofNat

theorem toNat_mod_three (n : UInt64) : (n % 3).toNat = n.toNat % 3 := UInt64.toNat_mod n 3

/-- One and a remainder of three are always a word. -/
theorem comesTo_one_add_mod (n : UInt64) :
    ComesTo (behindM 1 (n % 3).toNat : Stopping UInt64) True (1 + n % 3) := by
  have hfits : (1 : UInt64).toNat + (n % 3).toNat < UInt64.size := by
    rw [toNat_mod_three, show (1 : UInt64).toNat = 1 from rfl, show UInt64.size = 2 ^ 64 from rfl]
    omega
  have hsum := comesTo_behindM 1 (n % 3).toNat
  rw [UInt64.ofNat_toNat] at hsum
  exact hsum.iff (iff_of_true hfits trivial)

/-- Of the numbers of elements only the sums of the seed and a place may be no words. -/
theorem comesTo_lengthsM (seed : UInt64) (index : Nat) (fields : List PlacedField) :
    ComesTo (lengthsM seed index fields : Stopping _)
      (∀ p ∈ fields.zipIdx index, p.1.sizeField?.isSome → seed.toNat + p.2 < UInt64.size)
      (lengths seed index fields) := by
  induction fields generalizing index with
  | nil => exact (ComesTo.pure []).iff (by simp)
  | cons f rest ih =>
    rw [lengthsM, lengths, List.zipIdx_cons]
    simp only [List.forall_mem_cons]
    cases hsize : f.sizeField? with
    | none => exact (ih (index + 1)).iff (by simp)
    | some size =>
      have hcount := comesTo_one_add_mod (seed + .ofNat index)
      have hothers := (ih (index + 1)).map ((size, 1 + (seed + .ofNat index) % 3) :: ·)
      refine ((comesTo_behindM seed index).bind (hcount.bind hothers)).iff ?_
      simp

theorem comesTo_itemsM {itemM : UInt64 → Stopping Value} {item : UInt64 → Value}
    {fits : UInt64 → Prop} (hitem : ∀ n, ComesTo (itemM n) (fits n) (item n)) (count : Nat)
    (n : UInt64) :
    ComesTo (itemsM count n itemM)
      ((∀ k < count, n.toNat + k < UInt64.size) ∧ ∀ k < count, fits (n + .ofNat k))
      (items count n item) := by
  have hmade (k : Nat) := (comesTo_behindM n k).bind (hitem (n + .ofNat k))
  refine (ComesTo.mapM fun k _ => hmade k).iff ?_
  simp only [List.mem_range, forall_and]

section Field

variable {made? : Option String → UInt64 → Stopping Value}
  {made : Option String → UInt64 → Value} {lengths : List (String × UInt64)} {f : PlacedField}

/-- The value of a field, where the structs that it names come to theirs. The cases are those of the
format. -/
theorem comesTo_fieldM
    (hmade : ∀ n, ComesTo (made? f.structType? n) (StructFits plan f.structType? n)
      (made f.structType? n)) (n : UInt64) :
    ComesTo (fieldM lengths made? f n) (FieldFits plan lengths f n) (field lengths made f n) := by
  unfold fieldM field FieldFits partCount
  cases hformat : f.format with
  | int | uuid | string | ipv4 | ipv6 | refIpv4 | refIpv6 =>
    exact (ComesTo.pure _).iff (by simp [Format.isArray, Format.isStructShaped])
  | array e =>
    have helement (k : UInt64) :
        ComesTo (pure (element f.name k e) : Stopping Value) True (element f.name k e) := .pure _
    refine ((comesTo_itemsM helement _ n).map Value.array).iff ?_
    simp [Format.isArray, Format.isStructShaped, itemCount]
  | struct | refStruct =>
    refine (hmade n).iff ?_
    simp [Format.isArray, Format.isStructShaped]
  | structArray | refStructArray =>
    refine ((comesTo_itemsM hmade _ n).map Value.array).iff ?_
    simp [Format.isArray, Format.isStructShaped, itemCount]

/-- The values of fields, each with the number of its place. -/
theorem comesTo_fieldsFromM {fields : List PlacedField}
    (hmade : ∀ f ∈ fields, ∀ n, ComesTo (made? f.structType? n) (StructFits plan f.structType? n)
      (made f.structType? n)) (seed : UInt64) (index : Nat) (values : Fields) :
    ComesTo (fieldsFromM seed lengths made? index fields values)
      (∀ p ∈ fields.zipIdx index, FieldFits plan lengths p.1 (number seed p.2))
      (fieldsFrom seed lengths made index fields values) := by
  induction fields generalizing index values with
  | nil => exact (ComesTo.pure values).iff (by simp)
  | cons f rest ih =>
    obtain ⟨hf, hrest⟩ := List.forall_mem_cons.1 hmade
    rw [fieldsFromM, fieldsFrom, List.zipIdx_cons]
    refine ((comesTo_fieldM hf _).bind (ih hrest (index + 1) _)).iff ?_
    rw [List.forall_mem_cons, number]

/-- The values of a whole list. -/
theorem comesTo_listM {fields : List PlacedField}
    (hmade : ∀ f ∈ fields, ∀ n, ComesTo (made? f.structType? n) (StructFits plan f.structType? n)
      (made f.structType? n)) (seed : UInt64) :
    ComesTo (listM made? fields seed) (AllFit plan fields seed)
      (fieldsFrom seed (Sample.lengths seed 0 fields) made 0 fields []) :=
  ((comesTo_lengthsM seed 0 fields).bind (comesTo_fieldsFromM hmade seed 0 [])).iff
    allFit_iff_fieldFits.symm

end Field

/-- The structs of a type come to their values, as deep as they nest. The induction is on the
depth. -/
theorem comesTo_structM {depth : Nat} {name? : Option String}
    (hshallow : ∀ t, name? = some t → StructLayouts.Shallow plan.struct? depth t) (seed : UInt64) :
    ComesTo (structM plan depth name? seed : Stopping Value) (StructFits plan name? seed)
      (struct plan depth name? seed) := by
  induction depth generalizing name? seed with
  | zero =>
    refine (ComesTo.pure _).iff (iff_of_true trivial fun layout hlayout => ?_)
    obtain ⟨t, ht, hlayout⟩ := Option.bind_eq_some_iff.1 hlayout
    cases (hshallow t ht).symm.trans hlayout
  | succ depth ih =>
    unfold StructFits
    rw [structM, struct]
    cases hlayout : name?.bind plan.struct? with
    | none => exact (ComesTo.pure _).iff (by simp)
    | some layout =>
      obtain ⟨t, ht, hstruct⟩ := Option.bind_eq_some_iff.1 hlayout
      have hmade (f) (hf : f ∈ layout.members) (n : UInt64) :=
        ih (fun u hu => hshallow t ht layout hstruct f hf u hu) n
      exact ((comesTo_listM hmade seed).map Value.struct).iff (by simp)

/-! ## Small seeds -/

/-- An array has no more than three elements. -/
theorem itemCount_lengths_le (seed : UInt64) (index : Nat) (fields : List PlacedField)
    (f : PlacedField) : itemCount (lengths seed index fields) f ≤ 3 := by
  have hsmall : ∀ p ∈ lengths seed index fields, p.2.toNat ≤ 3 := by
    induction fields generalizing index with
    | nil => exact fun _ hp => nomatch hp
    | cons g rest ih =>
      rw [lengths]
      split
      · refine List.forall_mem_cons.2 ⟨?_, ih (index + 1)⟩
        rw [UInt64.toNat_add, toNat_mod_three, show (1 : UInt64).toNat = 1 from rfl]
        omega
      · exact ih (index + 1)
  rw [itemCount]
  cases hlookup : f.sizeField?.bind fun s => List.lookup s (lengths seed index fields) with
  | none => exact Nat.zero_le 3
  | some n =>
    obtain ⟨s, -, hlookup⟩ := Option.bind_eq_some_iff.1 hlookup
    obtain ⟨before, after, heq, -⟩ := List.lookup_eq_some_iff.1 hlookup
    exact hsmall (s, n) (heq ▸ List.mem_append_right before (.head after))

theorem partCount_lengths_le (seed : UInt64) (index : Nat) (fields : List PlacedField)
    (f : PlacedField) : partCount (lengths seed index fields) f ≤ 3 := by
  rw [partCount]
  split
  · exact itemCount_lengths_le seed index fields f
  · decide

/-- A number is no more than the exact one. -/
theorem toNat_number_le (seed : UInt64) (i : Nat) :
    (number seed i).toNat ≤ 31 * seed.toNat + i := by
  rw [number, UInt64.toNat_add, UInt64.toNat_mul, UInt64.toNat_ofNat', Nat.mul_comm]
  exact (Nat.mod_le _ _).trans (Nat.add_le_add (Nat.mod_le _ _) (Nat.mod_le _ _))

variable {width : Nat}

/-- A seed that is small next to the list makes words only. -/
theorem sumsFit_of_le {fields : List PlacedField} {seed : UInt64} (hwidth : fields.length ≤ width)
    (hseed : 31 * (seed.toNat + width + 1) ≤ UInt64.size) : SumsFit fields seed where
  lengths p hp _ := by
    have hplace := List.snd_lt_of_mem_zipIdx hp
    omega
  items p hp _ k hk := by
    have hplace := List.snd_lt_of_mem_zipIdx hp
    have hnumber := toNat_number_le seed p.2
    have hcount := itemCount_lengths_le seed 0 fields p.1
    omega

/-- On the way into a struct the seed grows to no more than 31 times itself and the greatest number
of fields. -/
theorem Leads.le {fields members : List PlacedField} {seed inner : UInt64}
    (h : Leads plan (fields, seed) (members, inner)) (hwidth : fields.length ≤ width) :
    inner.toNat + width + 1 ≤ 31 * (seed.toNat + width + 1) := by
  cases h with
  | @intro _ _ f i k _ hf _ hk _ =>
    have hplace := List.snd_lt_of_mem_zipIdx hf
    have hnumber := toNat_number_le seed i
    have hcount := partCount_lengths_le seed 0 fields f
    have hinner : (number seed i + .ofNat k).toNat ≤ (number seed i).toNat + k := by
      rw [UInt64.toNat_add, UInt64.toNat_ofNat']
      exact (Nat.mod_le _ _).trans (Nat.add_le_add_left (Nat.mod_le _ _) _)
    omega

/-- **Small seeds make words only**, as deep as structs nest. The induction is on the depth. -/
theorem allFit_of_le {depth : Nat} {fields : List PlacedField} {seed : UInt64}
    (hshallow : ∀ f ∈ fields, ∀ t, f.structType? = some t →
      StructLayouts.Shallow plan.struct? depth t)
    (hwidth : fields.length ≤ width) (hstructs : ∀ s ∈ plan.structs, s.members.length ≤ width)
    (hseed : 31 ^ (depth + 1) * (seed.toNat + width + 1) ≤ UInt64.size) :
    AllFit plan fields seed := by
  induction depth generalizing fields seed with
  | zero =>
    refine allFit_iff.2 ⟨sumsFit_of_le hwidth (by simpa using hseed), ?_⟩
    rintro _ ⟨hf, -, -, hlayout⟩
    obtain ⟨t, ht, hlayout⟩ := Option.bind_eq_some_iff.1 hlayout
    cases (hshallow _ (List.fst_mem_of_mem_zipIdx hf) t ht).symm.trans hlayout
  | succ depth ih =>
    have hpow : 31 * (seed.toNat + width + 1) ≤ 31 ^ (depth + 2) * (seed.toNat + width + 1) :=
      Nat.mul_le_mul_right _ (Nat.le_self_pow (by omega) 31)
    refine allFit_iff.2 ⟨sumsFit_of_le hwidth (hpow.trans hseed), ?_⟩
    rintro ⟨members, inner⟩ hleads
    have hinner := hleads.le hwidth
    obtain ⟨hf, -, -, hlayout⟩ := hleads
    obtain ⟨t, ht, hlayout⟩ := Option.bind_eq_some_iff.1 hlayout
    refine ih (hshallow _ (List.fst_mem_of_mem_zipIdx hf) t ht _ hlayout)
      (hstructs _ (List.mem_of_find?_eq_some hlayout)) ?_
    calc 31 ^ (depth + 1) * (_ + width + 1)
        ≤ 31 ^ (depth + 1) * (31 * (seed.toNat + width + 1)) := Nat.mul_le_mul_left _ hinner
      _ = 31 ^ (depth + 2) * (seed.toNat + width + 1) := by rw [← Nat.mul_assoc, ← pow_succ]
      _ ≤ UInt64.size := hseed

end Sample

/-- **Where sampling makes words only.** Where sums are checked, sampling a list of the plan returns
the sample values exactly if the sums of all lists that it comes to are words, and stops otherwise.
They are for seeds that are small next to the depth of the structs and the greatest number of
fields. -/
theorem Plan.sampleM_eq_ok_iff {source : String} {options : Options} {plan : Plan}
    (hplan : ofSource source options = .ok plan) (fields : List PlacedField) (seed : UInt64) :
    (∀ values, (plan.sampleM fields seed : Stopping _) = .ok values ↔
      Sample.AllFit plan fields seed ∧ plan.sample fields seed = values) ∧
    ∀ depth width, (∀ f ∈ fields, ∀ t, f.structType? = some t →
        StructLayouts.Shallow plan.struct? depth t) →
      fields.length ≤ width → (∀ s ∈ plan.structs, s.members.length ≤ width) →
      31 ^ (depth + 1) * (seed.toNat + width + 1) ≤ UInt64.size →
      (plan.sampleM fields seed : Stopping _) = .ok (plan.sample fields seed) := by
  have hcomes : ComesTo (plan.sampleM fields seed : Stopping _) (Sample.AllFit plan fields seed)
      (plan.sample fields seed) := by
    rw [sample_eq]
    refine Sample.comesTo_listM (fun f _ n => ?_) seed
    exact Sample.comesTo_structM (fun t _ => shallow_ofSource hplan t) n
  refine ⟨hcomes, fun depth width hshallow hwidth hstructs hseed => ?_⟩
  exact (hcomes _).2 ⟨Sample.allFit_of_le hshallow hwidth hstructs hseed, rfl⟩

/-- In structs within structs the sums stay words for a seed of fifty bits. -/
theorem sampleM_forest :
    (∀ s ∈ forestPlan.structs, s.members.length ≤ 2) ∧
      31 ^ (2 + 1) * (0x2000000000000 + 2 + 1) ≤ UInt64.size ∧
      (forestPlan.sampleM forestContainer.fields 0x2000000000000 : Stopping _) =
        .ok (forestPlan.sample forestContainer.fields 0x2000000000000) ∧
      Sample.AllFit forestPlan forestContainer.fields 0x2000000000000 := by
  have hstructs : ∀ s ∈ forestPlan.structs, s.members.length ≤ 2 := by decide +kernel
  have hseed : 31 ^ (2 + 1) * (0x2000000000000 + 2 + 1) ≤ UInt64.size := by decide +kernel
  obtain ⟨hreturns, hsmall⟩ :=
    Plan.sampleM_eq_ok_iff forestPlan_eq forestContainer.fields 0x2000000000000
  have hsample := hsmall 2 2 (fun _ _ t _ => Plan.shallow_ofSource forestPlan_eq t)
    (by decide) hstructs hseed
  exact ⟨hstructs, hseed, hsample, ((hreturns _).1 hsample).1⟩

/-- It is not so that sampling makes words only: the greatest seed and the place of the array are
none. -/
theorem not_forall_sampleM_eq_ok :
    ¬ ∀ (source : String) (options : Options) (plan : Plan),
      (Plan.ofSourceM source options : Stopping _) = .ok (.ok plan) →
      ∀ m ∈ plan.messages, ∀ container ∈ m.containers, ∀ seed,
        ∃ values, (plan.sampleM container.fields seed : Stopping _) = .ok values := by
  intro h
  have hplan : (Plan.ofSourceM tallySource {} : Stopping _) = .ok (.ok tallyPlan) :=
    Plan.ofSourceM_eq_ok_iff.2 ⟨tallyPlan_eq, by decide, by decide⟩
  obtain ⟨values, hvalues⟩ :=
    h tallySource {} tallyPlan hplan _ (.head _) tallyContainer (.head _) 0xFFFFFFFFFFFFFFFF
  have hstops : (tallyPlan.sampleM tallyContainer.fields 0xFFFFFFFFFFFFFFFF : Stopping _) =
      .error ⟨0xFFFFFFFFFFFFFFFF, 2⟩ := rfl
  cases hstops.symm.trans hvalues

end WirePlan
