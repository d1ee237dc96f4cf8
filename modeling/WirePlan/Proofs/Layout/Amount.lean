import Mathlib.Data.Int.ModEq
import WirePlan.Proofs.Layout.Wrapping

/-!
# What an offset amounts to

Evaluating an offset adds its terms one by one over signed 128-bit integers. The amount of an offset
(`Offset.amount?`) is the same sum over the integers, where nothing wraps. The two agree wherever
the amount is a 64-bit word, whatever the partial sums did on the way
(`Offset.evaluate?_of_amount?`), and a value that evaluation gives always has the low 64 bits of
the amount (`Offset.modEq_of_evaluate?`).

An amount looks nothing up but the fields that its terms refer to, so it stays as it is while other
fields become known (`Offset.amount?_congr`).
-/

namespace WirePlan.Offset

/-- The sum of terms over the integers, if all they need is known. -/
def Term.sum? (known : Known) : List Term → Option Int
  | [] => some 0
  | t :: rest => (t.value? known).bind fun v => (Term.sum? known rest).map (v + ·)

/-- The exact number of bytes that an offset stands for, if all it needs is known. -/
def amount? (o : Offset) (known : Known) : Option Int :=
  (Term.sum? known o.terms).map ((o.constant : Int) + ·)

namespace Term

/-- The sum of terms one after the other is the sum of the sums. -/
theorem sum?_append (known : Known) (xs ys : List Term) :
    sum? known (xs ++ ys) =
      (sum? known xs).bind fun a => (sum? known ys).map (a + ·) := by
  induction xs with
  | nil => simp [sum?]
  | cons t rest ih =>
    cases hv : t.value? known with
    | none => simp [sum?, hv]
    | some v =>
      cases hr : sum? known rest with
      | none => simp [sum?, hv, hr, ih]
      | some a => simp [sum?, hv, hr, ih, Function.comp_def, Int.add_assoc]

/-- Adding up wraps at most once in effect: the running total is the wrapped exact sum. -/
theorem sumFrom?_eq (known : Known) (total : Int) (t : Term) (rest : List Term) :
    sumFrom? known total (t :: rest) =
      (sum? known (t :: rest)).map fun a => (total + a).bmod size128 := by
  induction rest generalizing total t with
  | nil => cases hv : t.value? known <;> simp [sumFrom?, sum?, hv]
  | cons u rest ih =>
    cases hv : t.value? known with
    | none => simp [sumFrom?, sum?, hv]
    | some v =>
      have hstep : sumFrom? known total (t :: u :: rest) =
          sumFrom? known ((total + v).bmod size128) (u :: rest) := by
        rw [sumFrom?, hv]
      have hsum : sum? known (t :: u :: rest) = (sum? known (u :: rest)).map (v + ·) := by
        rw [sum?, hv]
        rfl
      rw [hstep, ih, hsum]
      cases sum? known (u :: rest) with
      | none => rfl
      | some a => simp [Int.bmod_add_bmod, Int.add_assoc]

/-- The value of a term depends on the fields that it refers to and on nothing else. -/
theorem value?_congr {known known' : Known} {t : Term}
    (h : ∀ r ∈ t.references, known.isPresent r = known'.isPresent r ∧
      known.count? r = known'.count? r ∧ known.stringLength? r = known'.stringLength? r ∧
      known.consumed? r = known'.consumed? r) :
    t.value? known = t.value? known' := by
  cases t with
  | stringBytes f | bytesOf f | absence f bytes =>
    obtain ⟨hp, -, hl, hb⟩ := h f (by simp [references, owner])
    simp [value?, hp, hl, hb]
  | elements f size c =>
    obtain ⟨hp, -⟩ := h f (by simp [references])
    obtain ⟨-, hc, -⟩ := h c (by simp [references])
    simp [value?, hp, hc]

end Term

/-- The amount depends on the fields that the terms refer to and on nothing else. -/
theorem amount?_congr {known known' : Known} {o : Offset}
    (h : ∀ t ∈ o.terms, ∀ r ∈ t.references, known.isPresent r = known'.isPresent r ∧
      known.count? r = known'.count? r ∧ known.stringLength? r = known'.stringLength? r ∧
      known.consumed? r = known'.consumed? r) :
    o.amount? known = o.amount? known' := by
  have hsum : ∀ ts : List Term, (∀ t ∈ ts, ∀ r ∈ t.references,
      known.isPresent r = known'.isPresent r ∧ known.count? r = known'.count? r ∧
        known.stringLength? r = known'.stringLength? r ∧
        known.consumed? r = known'.consumed? r) →
      Term.sum? known ts = Term.sum? known' ts := by
    intro ts
    induction ts with
    | nil => exact fun _ => rfl
    | cons t rest ih =>
      intro ht
      rw [Term.sum?, Term.sum?, Term.value?_congr (ht t (.head _)),
        ih fun u hu => ht u (.tail _ hu)]
  rw [amount?, amount?, hsum o.terms h]

/-- The running total of an offset: its constant where there is nothing to add, and the wrapped
amount otherwise. -/
theorem sumFrom?_terms (o : Offset) (known : Known) :
    sumFrom? known o.constant o.terms =
      (o.amount? known).map fun a => if o.terms = [] then a else a.bmod size128 := by
  obtain ⟨constant, terms⟩ := o
  cases terms with
  | nil => simp [sumFrom?, amount?, Term.sum?]
  | cons t rest =>
    rw [Term.sumFrom?_eq]
    simp [amount?, Function.comp_def]

/-- **Evaluation is exact.** An amount that is a 64-bit word is what evaluation gives. -/
theorem evaluate?_of_amount? {o : Offset} {known : Known} {n : Nat}
    (h : o.amount? known = some (n : Int)) (hn : n < UInt64.size) :
    o.evaluate? known = some n := by
  have hword : (n : Int) < UInt64.size := by exact_mod_cast hn
  have hbmod : (n : Int).bmod size128 = n := by
    apply Int.bmod_eq_of_le_mul_two
    · have : (0 : Int) ≤ size128 := Int.natCast_nonneg _
      omega
    · have : (UInt64.size : Int) * 2 ≤ size128 := by decide
      omega
  have htotal : (if o.terms = [] then (n : Int) else (n : Int).bmod size128) = n := by
    split
    · rfl
    · exact hbmod
  rw [evaluate?_eq, sumFrom?_terms, h, Option.map_some, Option.bind_some, htotal]
  exact word?_eq_some_iff.2 ⟨hn, rfl⟩

/-- Every term that is added up has a value. -/
theorem exists_value_of_sumFrom? {known : Known} {total sum : Int} {terms : List Term}
    (h : sumFrom? known total terms = some sum) : ∀ t ∈ terms, ∃ v, t.value? known = some v := by
  induction terms generalizing total with
  | nil => exact fun _ ht => nomatch ht
  | cons t rest ih =>
    rw [sumFrom?] at h
    split at h
    · next v hv => exact List.forall_mem_cons.2 ⟨⟨v, hv⟩, ih h⟩
    · cases h

/-- Every term of an offset that is evaluated has a value. -/
theorem exists_value_of_evaluate? {o : Offset} {known : Known} {n : Nat}
    (h : o.evaluate? known = some n) : ∀ t ∈ o.terms, ∃ v, t.value? known = some v := by
  rw [evaluate?_eq] at h
  obtain ⟨total, htotal, -⟩ := Option.bind_eq_some_iff.1 h
  exact exists_value_of_sumFrom? htotal

/-- An offset without terms is its constant. -/
theorem eq_constant_of_evaluate? {o : Offset} {known : Known} {n : Nat}
    (h : o.evaluate? known = some n) (hconstant : o.isConstant = true) : n = o.constant := by
  obtain ⟨constant, terms⟩ := o
  cases List.isEmpty_iff.1 hconstant
  rw [evaluate?_eq, sumFrom?, Option.bind_some, word?_eq_some_iff] at h
  exact (Int.ofNat.inj h.2).symm

/-- What evaluation gives is a 64-bit word with the low bits of the amount. -/
theorem modEq_of_evaluate? {o : Offset} {known : Known} {n : Nat}
    (h : o.evaluate? known = some n) :
    n < UInt64.size ∧ ∃ a, o.amount? known = some a ∧ (n : Int) ≡ a [ZMOD UInt64.size] := by
  rw [evaluate?_eq, sumFrom?_terms] at h
  cases ha : o.amount? known with
  | none => simp [ha] at h
  | some a =>
    have hlow : (if o.terms = [] then a else a.bmod size128) ≡ a [ZMOD UInt64.size] := by
      split
      · rfl
      · have hdvd : (UInt64.size : Int) ∣ size128 := by
          exact_mod_cast Nat.dvd_mul_right _ _
        exact Int.modEq_of_dvd (hdvd.trans Int.dvd_self_sub_bmod)
    rw [ha, Option.map_some, Option.bind_some, word?_eq_some_iff] at h
    obtain ⟨hn, htotal⟩ := h
    exact ⟨hn, a, rfl, htotal ▸ hlow⟩

end WirePlan.Offset
