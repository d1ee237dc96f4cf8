import Mathlib.Tactic.IntervalCases
import WirePlan.Text.Blank
import WirePlan.Text.Numeral

/-!
# Numerals are read back

The digits of a number in a base denote that number again (`Text.digitsValue?_toDigits`), by
induction on the number as the last digit is split off. None of them is a sign, a marker or a blank
(`Text.digit_plain`), so a reader that looks for these first does not take the digits for one.
-/

namespace WirePlan.Text

variable {base : Nat}

/-- A digit has its value. -/
theorem digitValue?_digitChar (hbase : base ≤ 16) {d : Nat} (hd : d < base) :
    digitValue? base d.digitChar = some d := by
  have hvalue : digitValue? base d.digitChar = if d < base then some d else none := by
    have hsmall : d < 16 := hd.trans_le hbase
    interval_cases d <;> rfl
  rw [hvalue, if_pos hd]

/-- Digits behind others continue the number of those. -/
theorem digitsValue?_append (start : Nat) (cs ds : List Char) :
    digitsValue? base start (cs ++ ds) =
      (digitsValue? base start cs).bind (digitsValue? base · ds) := by
  induction cs generalizing start with
  | nil => rfl
  | cons c cs ih =>
    rw [List.cons_append, digitsValue?, digitsValue?]
    cases digitValue? base c with
    | none => rfl
    | some d => exact ih _

/-- The digits of a number denote it. The induction splits off the last digit. -/
theorem digitsValue?_toDigits (hone : 1 < base) (hbase : base ≤ 16) (n : Nat) :
    digitsValue? base 0 (Nat.toDigits base n) = some n := by
  induction n using Nat.strongRecOn with
  | ind n ih =>
    have hlast : digitValue? base (n % base).digitChar = some (n % base) :=
      digitValue?_digitChar hbase (Nat.mod_lt n (by omega))
    rw [Nat.toDigits_eq_if hone]
    split
    · next hsmall =>
      rw [digitsValue?, digitValue?_digitChar hbase hsmall]
      simp [digitsValue?]
    · next hlarge =>
      have hfirst := ih (n / base) (Nat.div_lt_self (by omega) hone)
      rw [digitsValue?_append, hfirst, Option.bind_some, digitsValue?, hlast]
      simp only [digitsValue?, Option.some.injEq]
      exact Nat.div_add_mod' n base

/-- The characters of a number are digits. -/
theorem exists_of_mem_toDigits (hone : 1 < base) {n : Nat} {c : Char}
    (h : c ∈ Nat.toDigits base n) : ∃ d < base, c = d.digitChar := by
  induction n using Nat.strongRecOn with
  | ind n ih =>
    rw [Nat.toDigits_eq_if hone] at h
    split at h
    · next hsmall => exact ⟨n, hsmall, List.mem_singleton.1 h⟩
    · next hlarge =>
      rcases List.mem_append.1 h with hfirst | hlast
      · exact ih (n / base) (Nat.div_lt_self (by omega) hone) hfirst
      · exact ⟨n % base, Nat.mod_lt n (by omega), List.mem_singleton.1 hlast⟩

/-- A character that a number may be written with is no blank, no sign and no marker. -/
structure IsPlain (c : Char) : Prop where
  blank : isBlank c = false
  plus : c ≠ '+'
  minus : c ≠ '-'
  marker : c ≠ 'x' ∧ c ≠ 'X'

theorem digit_plain (hone : 1 < base) (hbase : base ≤ 16) {n : Nat} {c : Char}
    (h : c ∈ Nat.toDigits base n) : IsPlain c := by
  obtain ⟨d, hd, rfl⟩ := exists_of_mem_toDigits hone h
  have hsmall : d < 16 := hd.trans_le hbase
  interval_cases d <;> exact ⟨by decide, by decide, by decide, by decide⟩

theorem natural?_toDigits (hone : 1 < base) (hbase : base ≤ 16) (n : Nat) :
    natural? base (Nat.toDigits base n) = some n := by
  have hvalue := digitsValue?_toDigits hone hbase n
  cases hdigits : Nat.toDigits base n with
  | nil => exact absurd hdigits Nat.toDigits_ne_nil
  | cons c cs => rwa [natural?, ← hdigits]

/-- A number below the bound is read back. -/
theorem unsigned?_toDigits (hone : 1 < base) (hbase : base ≤ 16) {bound n : Nat} (h : n < bound) :
    unsigned? base bound (Nat.toDigits base n) = some n := by
  have hvalue := natural?_toDigits hone hbase n
  have hfirst : ∀ rest, Nat.toDigits base n ≠ '+' :: rest := fun rest heq =>
    (digit_plain hone hbase (heq ▸ List.mem_cons_self)).plus rfl
  unfold unsigned?
  split
  · next rest heq => exact absurd heq (hfirst rest)
  · dsimp only
    rw [hvalue]
    exact if_pos h

/-- A decimal that a signed word can hold is read back. -/
theorem signed64?_toDigits {n : Nat} (h : n < Int64.size / 2) :
    signed64? (Nat.toDigits 10 n) = some (n : Int) := by
  have hvalue : unsigned? 10 (Int64.size / 2) (Nat.toDigits 10 n) = some n :=
    unsigned?_toDigits (by decide) (by decide) h
  unfold signed64?
  split
  · next rest heq =>
    exact absurd rfl (digit_plain (by decide) (by decide) (heq ▸ List.mem_cons_self)).minus
  · rw [hvalue]
    rfl

/-- So is one behind a minus sign. -/
theorem signed64?_minus {n : Nat} (h : n ≤ Int64.size / 2) :
    signed64? ('-' :: Nat.toDigits 10 n) = some (-(n : Int)) := by
  rw [signed64?, natural?_toDigits (by decide) (by decide)]
  exact if_pos h

end WirePlan.Text
