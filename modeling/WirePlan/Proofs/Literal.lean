import Mathlib.Data.List.DropRight
import WirePlan.Condition
import WirePlan.Proofs.Text.Numeral

/-!
# Literals survive printing

The text of a literal denotes the literal, for every number and truth value
(`Literal.ofText_text_int`, `Literal.ofText_text_hex`, `Literal.ofText_text_bool`): no earlier
reading takes the text, as digits are neither blank nor a sign nor a marker. A symbol is denoted by
its text if it comes from a text, since it is trimmed then and no other reading took it
(`Literal.ofText_text_ofText`). A symbol that is made otherwise need not be: `name "1"` prints as a
number.
-/

namespace WirePlan

/-! ## Trimmed texts -/

namespace Text

/-- Without blanks at either end nothing is left to trim. -/
theorem trimChars_trimChars (cs : List Char) : trimChars (trimChars cs) = trimChars cs := by
  have hfirst : (trimChars cs).dropWhile isBlank = trimChars cs := by
    have hbegin : trimChars cs <+: cs.dropWhile isBlank := List.rdropWhile_prefix isBlank _
    refine List.dropWhile_eq_self_iff.2 fun hsome => ?_
    rw [hbegin.getElem hsome]
    exact List.dropWhile_eq_self_iff.1 (List.dropWhile_idempotent isBlank cs)
      (hsome.trans_le hbegin.length_le)
  rw [trimChars, hfirst]
  exact List.rdropWhile_idempotent isBlank (cs.dropWhile isBlank)

/-- Nor is there where no character is blank. -/
theorem trimChars_of_unblank {cs : List Char} (h : ∀ c ∈ cs, isBlank c = false) :
    trimChars cs = cs := by
  have hends : ∀ ds : List Char, (∀ c ∈ ds, isBlank c = false) → ds.dropWhile isBlank = ds := by
    intro ds hds
    refine List.dropWhile_eq_self_iff.2 fun hsome => ?_
    rw [hds _ (List.getElem_mem hsome)]
    exact Bool.false_ne_true
  rw [trimChars, hends cs h, hends _ fun c hc => h c (List.mem_reverse.1 hc), List.reverse_reverse]

end Text

namespace Literal

/-! ## Symbols -/

/-- A text that is read as a symbol is that symbol. -/
theorem eq_of_ofTrimmed_eq_name {cs : List Char} {s : String} (h : ofTrimmed cs = name s) :
    s = String.ofList cs := by
  unfold ofTrimmed at h
  dsimp only at h
  split at h
  · cases h
  split at h
  · cases h
  split at h
  · cases h
  split at h
  · cases h
  · cases h
    rfl

/-! ## Numbers and truth values -/

/-- A text that starts like no truth value is read as a number or a symbol. -/
theorem ofTrimmed_cons {c : Char} (cs : List Char) (hc : c ∉ ['t', 'T', 'f', 'F']) :
    ofTrimmed (c :: cs) =
      match (Text.afterHexMarker? (c :: cs)).bind (Text.unsigned? 16 UInt64.size) with
      | some n => hex (.ofNat n)
      | none =>
        match Text.signed64? (c :: cs) with
        | some i => int (.ofInt i)
        | none => name (.ofList (c :: cs)) := by
  have hne : ∀ {d : Char} {ds : List Char} {s : String}, s.toList = d :: ds →
      d ∈ ['t', 'T', 'f', 'F'] → String.ofList (c :: cs) ≠ s := by
    intro d ds s hs hd heq
    have hlist := (String.toList_ofList.symm.trans (congrArg String.toList heq)).trans hs
    exact hc ((List.cons.inj hlist).1 ▸ hd)
  have htrue : ¬ (String.ofList (c :: cs) = "true" ∨ String.ofList (c :: cs) = "TRUE") :=
    not_or.2 ⟨hne rfl (by decide), hne rfl (by decide)⟩
  have hfalse : ¬ (String.ofList (c :: cs) = "false" ∨ String.ofList (c :: cs) = "FALSE") :=
    not_or.2 ⟨hne rfl (by decide), hne rfl (by decide)⟩
  exact (if_neg htrue).trans (if_neg hfalse)

/-- A decimal that a signed word can hold is read as that number. -/
theorem ofTrimmed_decimal {c : Char} {cs : List Char} {i : Int}
    (hc : c ∉ ['t', 'T', 'f', 'F']) (hmarker : Text.afterHexMarker? (c :: cs) = none)
    (hvalue : Text.signed64? (c :: cs) = some i) : ofTrimmed (c :: cs) = int (.ofInt i) := by
  rw [ofTrimmed_cons cs hc, hmarker, Option.bind_none, hvalue]

/-- Decimal digits are not taken for a hexadecimal number. -/
theorem afterHexMarker?_toDigits (n : Nat) : Text.afterHexMarker? (Nat.toDigits 10 n) = none := by
  have hplain : ∀ c ∈ Nat.toDigits 10 n, Text.IsPlain c := fun _ =>
    Text.digit_plain (by decide) (by decide)
  unfold Text.afterHexMarker?
  split
  · next rest heq => exact absurd rfl (hplain 'x' (by simp [heq])).marker.1
  · next rest heq => exact absurd rfl (hplain 'X' (by simp [heq])).marker.2
  · rfl

/-- The first of decimal digits starts no truth value. -/
theorem not_mem_of_isDigit {c : Char} (h : c.isDigit = true) : c ∉ ['t', 'T', 'f', 'F'] := by
  intro hc
  simp only [List.mem_cons, List.not_mem_nil, or_false] at hc
  rcases hc with rfl | rfl | rfl | rfl <;> cases h

theorem ofTrimmed_toDigits {n : Nat} (h : n < Int64.size / 2) :
    ofTrimmed (Nat.toDigits 10 n) = int (.ofInt n) := by
  have hmarker := afterHexMarker?_toDigits n
  have hvalue := Text.signed64?_toDigits h
  have hdigit : ∀ c ∈ Nat.toDigits 10 n, c.isDigit = true := fun _ =>
    Nat.isDigit_of_mem_toDigits (by decide) (by decide)
  cases hdigits : Nat.toDigits 10 n with
  | nil => exact absurd hdigits Nat.toDigits_ne_nil
  | cons c cs =>
    rw [hdigits] at hmarker hvalue hdigit
    exact ofTrimmed_decimal (not_mem_of_isDigit (hdigit c (.head _))) hmarker hvalue

theorem ofTrimmed_minus {n : Nat} (h : n ≤ Int64.size / 2) :
    ofTrimmed ('-' :: Nat.toDigits 10 n) = int (.ofInt (-n)) :=
  ofTrimmed_decimal (by decide) rfl (Text.signed64?_minus h)

/-- A text without blanks is read as it stands. -/
theorem ofText_of_unblank {s : String} {cs : List Char} (hs : s.toList = cs)
    (h : ∀ c ∈ cs, Text.isBlank c = false) : ofText s = ofTrimmed cs := by
  rw [ofText, hs, Text.trimChars_of_unblank h]

/-- Digits are not blank. -/
theorem unblank_toDigits {base : Nat} (hone : 1 < base) (hbase : base ≤ 16) (n : Nat) :
    ∀ c ∈ Nat.toDigits base n, Text.isBlank c = false :=
  fun _ hc => (Text.digit_plain hone hbase hc).blank

/-- **Decimals are read back.** -/
theorem ofText_text_int (i : Int64) : ofText (int i).text = int i := by
  have hlow := i.le_toInt
  have hhigh := i.toInt_lt
  have hhalf : (Int64.size / 2 : Nat) = 2 ^ 63 := by decide
  cases hi : i.toInt with
  | ofNat n =>
    rw [hi, Int.ofNat_eq_natCast] at hhigh
    have hs : (int i).text.toList = Nat.toDigits 10 n := by
      rw [text, hi]
      simp [toString, Int.repr, Nat.repr]
    rw [ofText_of_unblank hs (unblank_toDigits (by decide) (by decide) n),
      ofTrimmed_toDigits (by omega), ← Int.ofNat_eq_natCast, ← hi, Int64.ofInt_toInt]
  | negSucc n =>
    rw [hi] at hlow
    have hs : (int i).text.toList = '-' :: Nat.toDigits 10 (n + 1) := by
      rw [text, hi]
      simp [toString, Int.repr, Nat.repr]
    have hunblank : ∀ c ∈ '-' :: Nat.toDigits 10 (n + 1), Text.isBlank c = false :=
      List.forall_mem_cons.2 ⟨by decide, unblank_toDigits (by decide) (by decide) _⟩
    rw [ofText_of_unblank hs hunblank, ofTrimmed_minus (by omega),
      show -((n + 1 : Nat) : Int) = i.toInt from hi.symm, Int64.ofInt_toInt]

/-- **Hexadecimal numbers are read back.** -/
theorem ofText_text_hex (h : UInt64) : ofText (hex h).text = hex h := by
  have hs : (hex h).text.toList = '0' :: 'x' :: Nat.toDigits 16 h.toNat := by
    have hdigits : (Text.hexadecimal h.toNat).toList = Nat.toDigits 16 h.toNat :=
      String.toList_ofList
    rw [text, String.toList_append, hdigits]
    rfl
  have hunblank : ∀ c ∈ '0' :: 'x' :: Nat.toDigits 16 h.toNat, Text.isBlank c = false :=
    List.forall_mem_cons.2 ⟨by decide, List.forall_mem_cons.2 ⟨by decide,
      unblank_toDigits (by decide) (by decide) _⟩⟩
  have hvalue : Text.unsigned? 16 UInt64.size (Nat.toDigits 16 h.toNat) = some h.toNat :=
    Text.unsigned?_toDigits (by decide) (by decide) h.toNat_lt_size
  rw [ofText_of_unblank hs hunblank, ofTrimmed_cons _ (by decide), Text.afterHexMarker?,
    Option.bind_some, hvalue]
  exact congrArg hex UInt64.ofNat_toNat

/-- **Truth values are read back.** -/
theorem ofText_text_bool (b : Bool) : ofText (bool b).text = bool b := by
  cases b <;> decide

/-- **What a text denotes is read back**, whatever the text. -/
theorem ofText_text_ofText (s : String) : ofText (ofText s).text = ofText s := by
  cases hl : ofText s with
  | int i => exact ofText_text_int i
  | bool b => exact ofText_text_bool b
  | hex h => exact ofText_text_hex h
  | name t =>
    have ht : t = String.ofList (Text.trimChars s.toList) := eq_of_ofTrimmed_eq_name hl
    rw [text, ofText, ht, String.toList_ofList, Text.trimChars_trimChars, ← ofText, hl, ht]

end Literal

end WirePlan
