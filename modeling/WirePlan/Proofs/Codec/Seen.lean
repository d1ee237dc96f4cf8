import WirePlan.Proofs.Codec.Steps
import WirePlan.Proofs.Keyed
import WirePlan.Proofs.Layout.Precedence

/-!
# The siblings seen so far

A decoder decides presence and counts by the siblings that it has decoded so far. As fields come
behind those they depend on, these say the same as the whole result (`SeenAs`): whatever the data,
the siblings seen on the way of a decode that succeeds are those of its result
(`seenAs_of_decodeFields`), and so a field is in the result exactly when its prerequisites hold of
the result (`decided_of_decodeFields`).
-/

namespace WirePlan

/-- Prerequisites see of a dictionary the siblings that they read. -/
theorem Prerequisite.allHold_congr {ps : List Prerequisite} {a b : Fields}
    (h : ∀ p ∈ ps, a.find? p.sibling = b.find? p.sibling) :
    allHold ps a = allHold ps b := by
  induction ps with
  | nil => rfl
  | cons p rest ih =>
    have hholds : p.holds a = p.holds b := by
      rw [holds, holds, subject?, subject?, h p (.head _)]
    rw [allHold, allHold, hholds, ih fun q hq => h q (.tail _ hq)]

/-- A field that is absent is gated. -/
theorem Field.isConditional_of_allHold {f : Field} {values : Fields}
    (h : Prerequisite.allHold f.prerequisites values = .ok false) : f.isConditional = true := by
  unfold isConditional
  cases hps : f.prerequisites with
  | nil =>
    rw [hps] at h
    cases h
  | cons p rest => rfl

namespace Codec

/-- The siblings seen are those of the result whose names came before. -/
structure SeenAs (before : List String) (result seen : Fields) : Prop where
  sorted : Keyed.Sorted seen
  find? : ∀ name, seen.find? name = if name ∈ before then result.find? name else none

/-- Before the first field nothing is seen. -/
theorem seenAs_nil (result : Fields) : SeenAs [] result [] := ⟨.nil, fun _ => rfl⟩

/-- A field that is read is seen. -/
theorem SeenAs.insert {before : List String} {result seen : Fields}
    (h : SeenAs before result seen) {name : String} {v : Value}
    (hv : result.find? name = some v) : SeenAs (name :: before) result (seen.insert name v) := by
  refine ⟨Keyed.sorted_insert h.sorted _ _, fun other => ?_⟩
  rw [Keyed.find?_insert, h.find?]
  by_cases hname : name = other
  · subst hname
    rw [if_pos rfl, if_pos (.head _), hv]
  · rw [if_neg hname]
    simp [eq_comm, hname]

/-- A field that is absent is not seen. -/
theorem SeenAs.skip {before : List String} {result seen : Fields} (h : SeenAs before result seen)
    {name : String} (hname : result.find? name = none) : SeenAs (name :: before) result seen := by
  refine ⟨h.sorted, fun other => ?_⟩
  rw [h.find?]
  by_cases hother : other = name
  · subst hother
    simp [hname]
  · simp [hother]

/-- When all names came before, the whole result is seen. -/
theorem SeenAs.eq_result {before : List String} {result seen : Fields}
    (h : SeenAs before result seen) (hsorted : Keyed.Sorted result)
    (hall : ∀ name v, result.find? name = some v → name ∈ before) : seen = result := by
  refine h.sorted.ext hsorted fun name => ?_
  rw [h.find?]
  split
  · rfl
  · next hname =>
    cases hfind : result.find? name with
    | none => rfl
    | some v => exact absurd (hall name v hfind) hname

/-- Prerequisites and counts of a field behind those it depends on ask for siblings that are seen.
-/
theorem SeenAs.allHold_eq {before : List String} {result seen : Fields}
    (h : SeenAs before result seen) {f : Field} (hdeps : ∀ d ∈ f.dependencies, d ∈ before) :
    Prerequisite.allHold f.prerequisites seen = Prerequisite.allHold f.prerequisites result := by
  refine Prerequisite.allHold_congr fun p hp => ?_
  rw [h.find?, if_pos (hdeps _ (List.mem_append_right _ (List.mem_map_of_mem hp)))]

theorem SeenAs.countOf_eq {before : List String} {result seen : Fields}
    (h : SeenAs before result seen) {f : PlacedField} (hdeps : ∀ d ∈ f.dependencies, d ∈ before)
    (hcounted : f.sizeField?.isSome) : countOf f seen = countOf f result := by
  obtain ⟨size, hsize⟩ := Option.isSome_iff_exists.1 hcounted
  have hmem : size ∈ before := hdeps size (List.mem_append_left _ (by simp [hsize]))
  rw [countOf, countOf, sizeField, hsize, Option.getD_some, h.find?, if_pos hmem]

/-- The siblings seen are in key order and have names from before. -/
structure Within (before : List String) (seen : Fields) : Prop where
  sorted : Keyed.Sorted seen
  absent : ∀ name ∉ before, seen.find? name = none

theorem within_nil : Within [] [] := ⟨.nil, fun _ _ => rfl⟩

theorem Within.insert {before : List String} {seen : Fields} (h : Within before seen)
    (name : String) (v : Value) : Within (name :: before) (seen.insert name v) := by
  refine ⟨Keyed.sorted_insert h.sorted _ _, fun other hother => ?_⟩
  have hne : name ≠ other := fun heq => hother (heq ▸ .head _)
  rw [Keyed.find?_insert, if_neg hne]
  exact h.absent other fun hmem => hother (.tail _ hmem)

theorem Within.skip {before : List String} {seen : Fields} (h : Within before seen)
    (name : String) : Within (name :: before) seen :=
  ⟨h.sorted, fun other hother => h.absent other fun hmem => hother (.tail _ hmem)⟩

section Decoding

variable {c : Codec} {data : Array UInt8} {inner : StructDecoder} {base : Nat} {endOffset : Offset}
  {fields : List PlacedField} {before : List String} {seen result : Fields} {known : Known}
  {size : Nat} {cur cur' : Cursor}

/-- **What was seen on the way is in the result.** The induction is on the fields. -/
theorem seenAs_of_decodeFields
    (h : decodeFields c data inner base endOffset seen known cur fields = .ok (result, size, cur'))
    (horder : Field.InOrder before (fields.map (·.toField))) (hwithin : Within before seen) :
    SeenAs before result seen := by
  induction fields generalizing before seen known cur with
  | nil =>
    obtain ⟨size, -, heq⟩ := decodeFields_nil_eq_ok.1 h
    cases heq
    refine ⟨hwithin.sorted, fun name => ?_⟩
    split
    · rfl
    · next hname => exact hwithin.absent name hname
  | cons f rest ih =>
    obtain ⟨hfresh, -, horder⟩ := horder
    refine ⟨hwithin.sorted, fun name => ?_⟩
    split
    · next hname =>
      rcases decodeFields_cons_eq_ok.1 h with ⟨-, h⟩ | ⟨-, offset, declared?, value, after, -, -, -,
        -, h⟩
      · have hfound := (ih h horder (hwithin.skip f.name)).find? name
        rwa [if_pos (.tail _ hname)] at hfound
      · have hne : f.name ≠ name := fun heq => hfresh (heq ▸ hname)
        have hfound := (ih h horder (hwithin.insert f.name value)).find? name
        rwa [Keyed.find?_insert, if_neg hne, if_pos (.tail _ hname)] at hfound
    · next hname => exact hwithin.absent name hname

/-- A field that is passed over is not in the result. -/
theorem find?_of_absent (hwithin : Within before seen) {f : PlacedField} (hfresh : f.name ∉ before)
    (hseen : SeenAs (f.name :: before) result seen) : result.find? f.name = none := by
  have hfound := hseen.find? f.name
  rw [if_pos (.head _), hwithin.absent f.name hfresh] at hfound
  exact hfound.symm

/-- A field that is decoded is in the result with its value. -/
theorem find?_of_present {f : PlacedField} {value : Value}
    (hseen : SeenAs (f.name :: before) result (seen.insert f.name value)) :
    result.find? f.name = some value := by
  have hfound := hseen.find? f.name
  rw [if_pos (.head _), Keyed.find?_insert, if_pos rfl] at hfound
  exact hfound.symm

/-- A field is in the result exactly when its prerequisites hold of the result, and an array in the
result is counted there. -/
structure Decided (result : Fields) (f : PlacedField) : Prop where
  presence : Prerequisite.allHold f.prerequisites result = .ok (result.find? f.name).isSome
  count : (result.find? f.name).isSome → f.format.isArray = true → ∃ n, countOf f result = .ok n

/-- **Every field of a list that is decoded is decided by the result.** -/
theorem decided_of_decodeFields
    (h : decodeFields c data inner base endOffset seen known cur fields = .ok (result, size, cur'))
    (horder : Field.InOrder before (fields.map (·.toField)))
    (hcounted : ∀ f ∈ fields, f.format.isArray = true → f.sizeField?.isSome)
    (hwithin : Within before seen) : ∀ f ∈ fields, Decided result f := by
  induction fields generalizing before seen known cur with
  | nil => exact fun _ hf => nomatch hf
  | cons f rest ih =>
    have hseen := seenAs_of_decodeFields h horder hwithin
    obtain ⟨hfresh, hdeps, horder⟩ := horder
    have hcounted' : ∀ g ∈ rest, g.format.isArray = true → g.sizeField?.isSome :=
      fun g hg => hcounted g (.tail _ hg)
    rcases decodeFields_cons_eq_ok.1 h with ⟨habsent, h⟩ | ⟨hpresent, offset, declared?, value,
      after, -, -, hvalue, -, h⟩
    · have hnone := find?_of_absent hwithin hfresh
        (seenAs_of_decodeFields h horder (hwithin.skip f.name))
      have hf : Decided result f := by
        constructor
        · rw [← hseen.allHold_eq hdeps, habsent, hnone]
          rfl
        · intro hsome
          rw [hnone] at hsome
          cases hsome
      exact List.forall_mem_cons.2 ⟨hf, ih h horder hcounted' (hwithin.skip f.name)⟩
    · have hwithin' := hwithin.insert f.name value
      have hsome := find?_of_present (seenAs_of_decodeFields h horder hwithin')
      have hf : Decided result f := by
        constructor
        · rw [← hseen.allHold_eq hdeps, hpresent, hsome]
          rfl
        · intro _ harray
          rw [← hseen.countOf_eq hdeps (hcounted f (.head _) harray)]
          obtain ⟨_, n, -, hn, -⟩ := (decodeValue_array_eq_ok harray).1 hvalue
          exact ⟨n, hn⟩
      exact List.forall_mem_cons.2 ⟨hf, ih h horder hcounted' hwithin'⟩

end Decoding

end Codec

end WirePlan
