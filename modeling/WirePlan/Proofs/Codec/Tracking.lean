import Mathlib.Tactic.Ring
import WirePlan.Proofs.Codec.Seen
import WirePlan.Proofs.Plan.References

/-!
# Offsets keep track of where decoding stands

A decoder goes to the offsets of the plan and never compares them with the end of what it has read.
It need not: what is known of the fields before makes the next offset amount to the bytes read so
far, in their low 64 bits (`Tracks`). This holds before the first field (`tracks_start`), and each
field keeps it, absent (`Tracks.without`) or there (`Tracks.record`). As an evaluated offset is a
64-bit word and nobody reads as many bytes, the offset is exactly their number
(`Tracks.eq_of_evaluate?`): every field starts where the one before has ended, and the list ends
with its last field.

No bound on the plan is needed: a constant may have wrapped, which leaves its low bits as they are.
-/

namespace WirePlan

namespace Codec

variable {o : Offset} {known : Known} {before : List String} {seen : Fields} {bytes : Nat}

/-! ## What is known of a field that was read -/

/-- What is known of a field once it is recorded tells the bytes that it takes. -/
def Measures (f : PlacedField) (seen : Fields) (value : Value) (bytes : Nat) : Prop :=
  ∀ known : Known, (∀ name, known.count? name = (seen.find? name).bind Value.natural?) →
    f.size.bytes? (known.record f.toField value bytes) f.name = some bytes

section Measures

variable {f : PlacedField} {value : Value}

theorem measures_fixed {n : Nat} (hsize : f.size = .fixed n) (hbytes : bytes = n) :
    Measures f seen value bytes := by
  intro known _
  rw [hsize, hbytes]
  rfl

theorem measures_string (hformat : f.format = .string)
    (hsize : f.size = .lengthPrefixed f.lengthFormat.size) (hbytes : f.lengthFormat.size ≤ bytes) :
    Measures f seen value bytes := by
  intro known _
  simp [hsize, WireSize.bytes?, Known.record, hformat, hbytes]

theorem measures_composite {t : String} (hsize : f.size = .composite t) :
    Measures f seen value bytes := by
  intro known _
  simp [hsize, WireSize.bytes?, Known.record]

/-- The elements of an array are counted by another field. -/
theorem measures_repeated {element : WireSize} {count : Nat} {counter : String}
    (hsize : f.size = .repeated counter element) (hcounter : f.sizeField? = some counter)
    (hother : counter ≠ f.name) (hcount : countOf f seen = .ok count)
    (hbytes : ∀ n, element = .fixed n → bytes = n * count) : Measures f seen value bytes := by
  intro known hknown
  cases element with
  | fixed n =>
    have hfound : (seen.find? counter).bind Value.natural? = some count := by
      have h := countOf_eq_ok.1 hcount
      rwa [sizeField, hcounter] at h
    rw [hsize, WireSize.bytes?, Known.record, hbytes n rfl]
    simp [hother, hknown, hfound]
  | lengthPrefixed _ | repeated _ _ | composite _ => simp [hsize, WireSize.bytes?, Known.record]

/-- The bytes of an array with elements of variable size are known as a whole. -/
theorem measures_variable {element : WireSize} {counter : String}
    (hsize : f.size = .repeated counter element) (hvariable : element.fixed? = none) :
    Measures f seen value bytes := by
  intro known _
  cases element with
  | fixed n => cases hvariable
  | lengthPrefixed _ | repeated _ _ | composite _ => simp [hsize, WireSize.bytes?, Known.record]

/-- A field takes at least its fixed bytes. -/
theorem Measures.fixedPart_le (h : Measures f seen value bytes) : f.size.fixedPart ≤ bytes := by
  have hbytes := h
    { Known.nothing with count? := fun name => (seen.find? name).bind Value.natural? } fun _ => rfl
  cases hsize : f.size with
  | fixed n =>
    rw [hsize] at hbytes
    cases hbytes
    exact Nat.le_refl _
  | lengthPrefixed n =>
    rw [hsize] at hbytes
    obtain ⟨length, -, rfl⟩ := Option.map_eq_some_iff.1 hbytes
    exact Nat.le_add_right n length
  | repeated _ _ | composite _ => exact Nat.zero_le bytes

end Measures

/-! ## From field to field -/

/-- What is known of the fields before, whose values are `seen`, makes an offset amount to so many
bytes, up to a multiple of 2^64, unless a product on the way is too great to be known. -/
structure Tracks (o : Offset) (known : Known) (before : List String) (seen : Fields)
    (bytes : Nat) : Prop where
  within : Within before seen
  amount : ∀ a, o.amount? known = some a → a ≡ bytes [ZMOD UInt64.size]
  references : ∀ t ∈ o.terms, ∀ r ∈ t.references, r ∈ before
  present : ∀ name ∉ before, known.isPresent name = true
  count : ∀ name, known.count? name = (seen.find? name).bind Value.natural?

/-- Before the first field there are no bytes. -/
theorem tracks_start : Tracks {} .nothing [] [] 0 where
  within := within_nil
  amount a ha := by
    cases ha
    rfl
  references _ ht := nomatch ht
  present _ _ := rfl
  count _ := rfl

/-- An offset that tracks bytes is evaluated to their low 64 bits. -/
theorem Tracks.modEq_of_evaluate? (h : Tracks o known before seen bytes) {n : Nat}
    (heval : o.evaluate? known = some n) : n < UInt64.size ∧ n ≡ bytes [MOD UInt64.size] := by
  obtain ⟨hn, a, ha, hmod⟩ := Offset.modEq_of_evaluate? heval
  exact ⟨hn, Int.natCast_modEq_iff.1 (hmod.trans (h.amount a ha))⟩

/-- **An offset that tracks bytes is evaluated to their number.** -/
theorem Tracks.eq_of_evaluate? (h : Tracks o known before seen bytes) {n : Nat}
    (heval : o.evaluate? known = some n) (hbytes : bytes < UInt64.size) : n = bytes := by
  obtain ⟨hn, hmod⟩ := h.modEq_of_evaluate? heval
  exact hmod.eq_of_lt_of_lt hn hbytes

/-- An offset that tracks bytes is never evaluated to more. -/
theorem Tracks.le_of_evaluate? (h : Tracks o known before seen bytes) {n : Nat}
    (heval : o.evaluate? known = some n) : n ≤ bytes := by
  obtain ⟨hn, hmod⟩ := h.modEq_of_evaluate? heval
  rw [← Nat.mod_eq_of_lt hn, hmod]
  exact Nat.mod_le bytes UInt64.size

/-- It tracks just as well what it is evaluated to. -/
theorem Tracks.of_evaluate? (h : Tracks o known before seen bytes) {n : Nat}
    (heval : o.evaluate? known = some n) : Tracks o known before seen n :=
  { h with
    amount := fun a ha => (h.amount a ha).trans
      (Int.natCast_modEq_iff.2 (h.modEq_of_evaluate? heval).2).symm }

/-- An offset moves on with the bytes. -/
theorem Tracks.advance (h : Tracks o known before seen bytes) (header : Nat) :
    Tracks (o.advance header) known before seen (bytes + header) where
  within := h.within
  amount a ha := by
    rw [Offset.amount?_advance] at ha
    obtain ⟨b, hb, rfl⟩ := Option.map_eq_some_iff.1 ha
    have hwrap := wrap64_modEq (o.constant + header)
    have hsum := (h.amount b hb).add (hwrap.sub_right (o.constant : Int))
    rw [Nat.cast_add, add_sub_cancel_left] at hsum
    rwa [Nat.cast_add]
  references := h.references
  present := h.present
  count := h.count

section Field

variable {f : PlacedField}

section Fresh

variable (hfresh : f.name ∉ before) (h : ∀ t ∈ o.terms, ∀ r ∈ t.references, r ∈ before)

include hfresh h

/-- That a field is absent leaves the amount of what came before as it is. -/
theorem amount?_without : o.amount? (known.without f.name) = o.amount? known := by
  refine Offset.amount?_congr fun t ht r hr => ?_
  have hne : r ≠ f.name := fun heq => hfresh (heq ▸ h t ht r hr)
  simp [Known.without, hne]

/-- What becomes known of a field leaves the amount of what came before as it is. -/
theorem amount?_record (value : Value) (taken : Nat) :
    o.amount? (known.record f.toField value taken) = o.amount? known := by
  refine Offset.amount?_congr fun t ht r hr => ?_
  have hne : r ≠ f.name := fun heq => hfresh (heq ▸ h t ht r hr)
  simp [Known.record, hne]

end Fresh

variable {structs : StructLayouts} (hstructs : structs.WellFormed)
  (hsized : SizeFits structs f.toField f.size) (hdeps : ∀ d ∈ f.dependencies, d ∈ before)
  (hfresh : f.name ∉ before)

include hstructs hsized hdeps hfresh

/-- An absent field takes no bytes, and its header is taken back. -/
theorem Tracks.without {header : Nat} (h : Tracks f.offset known before seen (bytes + header))
    (hgated : f.isConditional = true) :
    Tracks (f.offset.past header f.toField f.size) (known.without f.name) (f.name :: before) seen
      bytes where
  within := h.within.skip f.name
  amount a ha := by
    have habsent : (known.without f.name).isPresent f.name = false := by simp [Known.without]
    obtain ⟨b, hb, rfl⟩ := Offset.exists_of_amount?_past_absent habsent hgated ha
    have hmod := h.amount b ((amount?_without hfresh h.references).symm.trans hb)
    have hwrap := wrap64_modEq (f.offset.constant + f.size.fixedPart)
    have hback := wrap64_modEq (header + f.size.fixedPart)
    have hsum := (hmod.add (hwrap.sub_right (f.offset.constant : Int))).sub hback
    have hexact : ((bytes + header : Nat) : Int) +
        ((f.offset.constant + f.size.fixedPart : Nat) - f.offset.constant) -
        (header + f.size.fixedPart : Nat) = bytes := by
      push_cast
      ring
    rwa [hexact] at hsum
  references := Offset.references_past hstructs hsized hdeps h.references header
  present name hname := by
    simp only [List.mem_cons, not_or] at hname
    simp [Known.without, hname.1, h.present name hname.2]
  count := h.count

/-- A field that is there takes the bytes that are known of it. -/
theorem Tracks.record {value : Value} {taken : Nat}
    (h : Tracks f.offset known before seen bytes) (hmeasures : Measures f seen value taken)
    (header : Nat) :
    Tracks (f.offset.past header f.toField f.size) (known.record f.toField value taken)
      (f.name :: before) (seen.insert f.name value) (bytes + taken) where
  within := h.within.insert f.name value
  amount a ha := by
    have hpresent : (known.record f.toField value taken).isPresent f.name = true :=
      h.present f.name hfresh
    obtain ⟨b, hb, rfl⟩ :=
      Offset.exists_of_amount?_past_present hpresent (hmeasures known h.count) ha
    have hmod := h.amount b ((amount?_record hfresh h.references value taken).symm.trans hb)
    have hwrap := wrap64_modEq (f.offset.constant + f.size.fixedPart)
    have hsum := (hmod.add (hwrap.sub_right (f.offset.constant : Int))).add_right
      ((taken : Int) - f.size.fixedPart)
    have hexact : (bytes : Int) +
        ((f.offset.constant + f.size.fixedPart : Nat) - f.offset.constant) +
        (taken - f.size.fixedPart) = (bytes + taken : Nat) := by
      push_cast
      ring
    rwa [hexact] at hsum
  references := Offset.references_past hstructs hsized hdeps h.references header
  present name hname := h.present name fun hmem => hname (.tail _ hmem)
  count name := by
    rw [Keyed.find?_insert]
    by_cases hname : f.name = name
    · subst hname
      simp [Known.record, h.count, h.within.absent f.name hfresh]
    · simp [Known.record, h.count, hname, Ne.symm hname]

end Field

end Codec

end WirePlan
