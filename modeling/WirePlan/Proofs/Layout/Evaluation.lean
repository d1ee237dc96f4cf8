import WirePlan.Proofs.Layout.Amount
import WirePlan.Proofs.Overflow

/-!
# When evaluation is exact

What an offset is meant to give is the sum of its constant and its terms over the integers
(`Offset.exact`), whenever all that its present fields need is known (`Term.Available`). Evaluation
adds over signed 128-bit integers. A product that exceeds them is noticed and gives nothing
(`Term.Fits`), but a total that exceeds them is not: where sums wrap, evaluation gives the exact sum
modulo 2^128, and where they are checked it stops. It returns exactly if no total on its way exceeds
them (`Offset.SumsFit`), and what it returns is then the exact sum (`Offset.evaluateM_eq_ok_iff`).

Two products next to 2^127 are enough to stop it (`not_forall_evaluateM_exact`). Fewer than 2^62
terms that each have a place in memory never do.
-/

namespace WirePlan

namespace Offset.Term

/-- What the term looks up of its field is known. -/
def Available (known : Known) (t : Term) : Prop :=
  known.isPresent t.owner = true →
    match t with
    | stringBytes f => (known.stringLength? f).isSome
    | elements _ _ c => (known.count? c).isSome
    | bytesOf f => (known.consumed? f).isSome
    | absence .. => True

/-- The bytes that the term stands for; what is not known counts nothing. -/
def exact (known : Known) : Term → Int
  | absence f bytes => if known.isPresent f then 0 else -(bytes : Int)
  | stringBytes f => if known.isPresent f then ((known.stringLength? f).getD 0 : Nat) else 0
  | elements f size c => if known.isPresent f then (size * (known.count? c).getD 0 : Nat) else 0
  | bytesOf f => if known.isPresent f then ((known.consumed? f).getD 0 : Nat) else 0

/-- The bytes of the elements of a present array are a signed 128-bit integer. -/
def Fits (known : Known) : Term → Prop
  | elements f size c => known.isPresent f = true →
      size * (known.count? c).getD 0 < size128 / 2
  | _ => True

/-- The sizes in a term are 64-bit words. -/
def InWords : Term → Prop
  | elements _ size _ => size < UInt64.size
  | absence _ bytes => bytes < UInt64.size
  | _ => True

/-- What the term stands for is the number of bytes of something that has a place in memory. -/
def InMemory (known : Known) (t : Term) : Prop :=
  (t.exact known).natAbs < UInt64.size

instance (known : Known) : (t : Term) → Decidable (t.Available known)
  | stringBytes _ => inferInstanceAs (Decidable (_ → Option.isSome _ = true))
  | elements .. => inferInstanceAs (Decidable (_ → Option.isSome _ = true))
  | bytesOf _ => inferInstanceAs (Decidable (_ → Option.isSome _ = true))
  | absence .. => inferInstanceAs (Decidable (_ → True))

instance (known : Known) : (t : Term) → Decidable (t.Fits known)
  | elements .. => inferInstanceAs (Decidable (_ → _ < _))
  | stringBytes _ | bytesOf _ | absence .. => inferInstanceAs (Decidable True)

instance : (t : Term) → Decidable t.InWords
  | elements .. | absence .. => inferInstanceAs (Decidable (_ < _))
  | stringBytes _ | bytesOf _ => inferInstanceAs (Decidable True)

instance (known : Known) (t : Term) : Decidable (t.InMemory known) :=
  inferInstanceAs (Decidable (_ < _))

/-- A term has a value where it is available and fits, and the value is the exact one. -/
theorem value?_eq_some_iff {known : Known} {t : Term} {v : Int} :
    t.value? known = some v ↔ t.Available known ∧ t.Fits known ∧ t.exact known = v := by
  cases t with
  | absence f bytes => simp [value?, Available, Fits, exact]
  | stringBytes f =>
    cases hp : known.isPresent f with
    | false => simp [value?, Available, Fits, exact, owner, hp]
    | true =>
      cases hl : known.stringLength? f <;>
        simp [value?, Available, Fits, exact, owner, hp, hl]
  | bytesOf f =>
    cases hp : known.isPresent f with
    | false => simp [value?, Available, Fits, exact, owner, hp]
    | true =>
      cases hb : known.consumed? f <;> simp [value?, Available, Fits, exact, owner, hp, hb]
  | elements f size c =>
    cases hp : known.isPresent f with
    | false => simp [value?, Available, Fits, exact, owner, hp]
    | true =>
      cases hc : known.count? c with
      | none => simp [value?, Available, owner, hp, hc]
      | some n => simp [value?, Available, Fits, exact, owner, hp, hc]

/-- The sum of terms that all have a value is the sum of their exact values. -/
theorem sum?_eq_some_iff {known : Known} {ts : List Term} {a : Int} :
    sum? known ts = some a ↔
      (∀ t ∈ ts, t.Available known ∧ t.Fits known) ∧ (ts.map (exact known)).sum = a := by
  induction ts generalizing a with
  | nil => simp [sum?]
  | cons t rest ih =>
    have hcons : sum? known (t :: rest) = some a ↔
        ∃ v, t.value? known = some v ∧ ∃ b, sum? known rest = some b ∧ v + b = a := by
      simp [sum?, Option.bind_eq_some_iff]
    simp only [hcons, value?_eq_some_iff, ih, List.forall_mem_cons, List.map_cons, List.sum_cons]
    constructor
    · rintro ⟨v, ⟨ha, hf, rfl⟩, b, ⟨hrest, rfl⟩, rfl⟩
      exact ⟨⟨⟨ha, hf⟩, hrest⟩, rfl⟩
    · rintro ⟨⟨⟨ha, hf⟩, hrest⟩, rfl⟩
      exact ⟨_, ⟨ha, hf, rfl⟩, _, ⟨hrest, rfl⟩, rfl⟩

end Offset.Term

namespace Offset

/-- The bytes that an offset stands for, over the integers. -/
def exact (o : Offset) (known : Known) : Int :=
  o.constant + (o.terms.map (Term.exact known)).sum

/-- The constant and the sizes in the terms are 64-bit words. -/
structure InWords (o : Offset) : Prop where
  constant : o.constant < UInt64.size
  terms : ∀ t ∈ o.terms, t.InWords

/-- The amount of an offset is its exact sum, where all terms are available and fit. -/
theorem amount?_eq_some_iff {o : Offset} {known : Known} {a : Int} :
    o.amount? known = some a ↔
      (∀ t ∈ o.terms, t.Available known ∧ t.Fits known) ∧ o.exact known = a := by
  simp only [amount?, Option.map_eq_some_iff, Term.sum?_eq_some_iff, exact]
  constructor
  · rintro ⟨b, ⟨hterms, rfl⟩, rfl⟩
    exact ⟨hterms, rfl⟩
  · rintro ⟨hterms, rfl⟩
    exact ⟨_, ⟨hterms, rfl⟩, rfl⟩

/-- With a constant that is a word the running total is the wrapped amount. -/
theorem sumFrom?_of_constant_lt {o : Offset} {known : Known} (h : o.constant < UInt64.size) :
    sumFrom? known o.constant o.terms = (o.amount? known).map (·.bmod size128) := by
  rw [sumFrom?_terms]
  by_cases hterms : o.terms = []
  · have hbound : UInt64.size * 2 ≤ size128 := by decide
    have hconstant : (o.constant : Int).bmod size128 = o.constant :=
      Int.bmod_eq_of_le_mul_two (by omega) (by omega)
    simp [amount?, hterms, Term.sum?, hconstant]
  · simp [hterms]

/-- What evaluation gives is the wrapped amount, where it is a 64-bit word. -/
theorem evaluate?_eq_some_iff_amount? {o : Offset} {known : Known} {n : Nat}
    (h : o.constant < UInt64.size) :
    o.evaluate? known = some n ↔
      n < UInt64.size ∧ ∃ a, o.amount? known = some a ∧ a.bmod size128 = n := by
  rw [evaluate?_eq, sumFrom?_of_constant_lt h]
  cases o.amount? known with
  | none => simp
  | some a => simp [word?_eq_some_iff]

/-- What evaluation gives is the exact sum modulo 2^128. -/
theorem evaluate?_eq_some_iff_bmod {o : Offset} {known : Known} {n : Nat}
    (h : o.constant < UInt64.size) :
    o.evaluate? known = some n ↔
      n < UInt64.size ∧ (∀ t ∈ o.terms, t.Available known ∧ t.Fits known) ∧
        (o.exact known).bmod size128 = n := by
  simp only [evaluate?_eq_some_iff_amount? h, amount?_eq_some_iff, and_assoc, exists_and_left,
    exists_eq_left']

/-- The offset with its first terms alone. -/
def upTo (o : Offset) (i : Nat) : Offset := { o with terms := o.terms.take i }

theorem upTo_length (o : Offset) : o.upTo o.terms.length = o := by
  rw [upTo, List.take_length]

/-- No total on the way through the terms exceeds the signed 128-bit integers. Terms are added up as
far as all are available and fit. -/
def SumsFit (o : Offset) (known : Known) : Prop :=
  ∀ i, (∀ t ∈ (o.upTo i).terms, t.Available known ∧ t.Fits known) →
    IsInt128 ((o.upTo i).exact known)

/-- Terms are added up to a total exactly if no total on the way exceeds the signed 128-bit
integers. The induction is on the terms, with the total so far. -/
theorem comesTo_sumFromM (known : Known) {total : Int} (htotal : IsInt128 total)
    (terms : List Term) :
    ComesTo (sumFromM known total terms : Stopping (Option Int))
      (∀ i a, Term.sum? known (terms.take i) = some a → IsInt128 (total + a))
      (sumFrom? known total terms) := by
  have hstart : ∀ {total : Int}, IsInt128 total → ∀ a, Term.sum? known [] = some a →
      IsInt128 (total + a) := by
    rintro total htotal _ ⟨⟩
    rwa [Int.add_zero]
  induction terms generalizing total with
  | nil =>
    refine (ComesTo.pure (some total)).iff (iff_of_true trivial fun i a h => ?_)
    exact hstart htotal a (List.take_nil ▸ h)
  | cons t rest ih =>
    rw [sumFromM, sumFrom?]
    cases hv : t.value? known with
    | none =>
      refine (ComesTo.pure none).iff (iff_of_true trivial fun i a h => ?_)
      cases i with
      | zero => exact hstart htotal a h
      | succ i => simp [Term.sum?, hv] at h
    | some v =>
      have hsums := (comesTo_addInt128 total v).bind (f := (sumFromM known · rest))
        (ih (isInt128_bmod (total + v)))
      refine hsums.iff ⟨?_, fun h => ?_⟩
      · rintro ⟨hsum, hrest⟩ i a h
        cases i with
        | zero => exact hstart htotal a h
        | succ i =>
          rw [List.take_succ_cons, Term.sum?, hv, Option.bind_some, Option.map_eq_some_iff] at h
          obtain ⟨b, hb, rfl⟩ := h
          have hsum' := hrest i b hb
          rwa [hsum.bmod, Int.add_assoc] at hsum'
      · have hsum : IsInt128 (total + v) := h 1 v (by simp [Term.sum?, hv])
        refine ⟨hsum, fun i a ha => ?_⟩
        rw [hsum.bmod, Int.add_assoc]
        exact h (i + 1) (v + a) (by simp [Term.sum?, hv, ha])

/-- Evaluation returns exactly if no total on the way exceeds the signed 128-bit integers. -/
theorem comesTo_evaluateM {o : Offset} {known : Known} (h : o.constant < UInt64.size) :
    ComesTo (o.evaluateM known : Stopping (Option Nat)) (o.SumsFit known)
      (o.evaluate? known) := by
  have hhalf : UInt64.size ≤ size128 / 2 := by decide
  have hconstant : IsInt128 o.constant := by
    rw [IsInt128]
    omega
  rw [evaluate?_eq]
  refine ((comesTo_sumFromM known hconstant o.terms).map (·.bind word?)).iff ?_
  have hfits : o.SumsFit known ↔
      ∀ i a, (o.upTo i).amount? known = some a → IsInt128 a := by
    refine forall_congr' fun i => ⟨fun h a ha => ?_, fun h hall => h _ ?_⟩
    · obtain ⟨hall, rfl⟩ := amount?_eq_some_iff.1 ha
      exact h hall
    · exact amount?_eq_some_iff.2 ⟨hall, rfl⟩
  rw [hfits]
  refine forall_congr' fun i => ?_
  simp [amount?, upTo]

/-- Where no total on the way exceeds the signed 128-bit integers, evaluation gives the exact sum.
-/
theorem SumsFit.evaluate?_eq_some_iff {o : Offset} {known : Known} (hsums : o.SumsFit known)
    (h : o.constant < UInt64.size) {n : Nat} :
    o.evaluate? known = some n ↔
      n < UInt64.size ∧ (∀ t ∈ o.terms, t.Available known ∧ t.Fits known) ∧
        o.exact known = n := by
  rw [evaluate?_eq_some_iff_bmod h]
  refine and_congr_right fun _ => and_congr_right fun hterms => ?_
  have hsum := hsums o.terms.length
  rw [upTo_length] at hsum
  rw [(hsum hterms).bmod]

/-- A term whose size is a word takes back less than a word. -/
theorem Term.InWords.neg_le_exact {t : Term} (h : t.InWords) (known : Known) :
    -(UInt64.size : Int) ≤ t.exact known := by
  cases t with
  | absence f bytes =>
    have hbytes : bytes < UInt64.size := h
    rw [exact]
    split <;> omega
  | stringBytes f | bytesOf f | elements f size c =>
    rw [exact]
    split <;> omega

/-- Terms whose sizes are words take back less than a word each. -/
theorem neg_le_sum (known : Known) {ts : List Term} (h : ∀ t ∈ ts, t.InWords) :
    -((ts.length * UInt64.size : Nat) : Int) ≤ (ts.map (Term.exact known)).sum := by
  induction ts with
  | nil => simp
  | cons t rest ih =>
    obtain ⟨ht, hrest⟩ := List.forall_mem_cons.1 h
    have hrest := ih hrest
    have ht := ht.neg_le_exact known
    rw [List.map_cons, List.sum_cons, List.length_cons, Nat.succ_mul, Nat.cast_add, neg_add_rev]
    exact Int.add_le_add ht hrest

/-- A product that exceeds the signed 128-bit integers is not made up for by few terms. -/
theorem fits_of_exact_lt {o : Offset} {known : Known} (hwords : ∀ t ∈ o.terms, t.InWords)
    (hfew : o.terms.length < 2 ^ 62) (hexact : o.exact known < UInt64.size) :
    ∀ t ∈ o.terms, t.Fits known := by
  intro t ht
  cases t with
  | stringBytes _ | bytesOf _ | absence _ _ => trivial
  | elements f size c =>
    intro hp
    obtain ⟨before, behind, hterms⟩ := List.append_of_mem ht
    have hvalue : Term.exact known (.elements f size c) =
        (size * (known.count? c).getD 0 : Nat) := by
      rw [Term.exact, if_pos hp]
    have hothers : ∀ u ∈ before ++ behind, u.InWords := by
      intro u hu
      refine hwords u (hterms ▸ ?_)
      exact (List.perm_middle.mem_iff).2 (.tail _ hu)
    have hlow := neg_le_sum known hothers
    have hlength : (before ++ behind).length < 2 ^ 62 := by
      simp only [hterms, List.length_append, List.length_cons] at hfew ⊢
      omega
    have hlength := Nat.mul_lt_mul_of_pos_right hlength (show 0 < UInt64.size by decide)
    have hhalf : 2 ^ 62 * UInt64.size + UInt64.size ≤ size128 / 2 := by decide
    rw [Offset.exact, hterms, List.map_append, List.map_cons, List.sum_append, List.sum_cons,
      hvalue] at hexact
    rw [List.map_append, List.sum_append] at hlow
    omega

/-- Terms that have a place in memory are no more than a word each. -/
theorem natAbs_sum_le {known : Known} {ts : List Term} (h : ∀ t ∈ ts, t.InMemory known) :
    (ts.map (Term.exact known)).sum.natAbs ≤ ts.length * UInt64.size := by
  induction ts with
  | nil => simp
  | cons t rest ih =>
    have ht : (t.exact known).natAbs < UInt64.size := h t (.head _)
    have hrest := ih fun u hu => h u (.tail _ hu)
    rw [List.map_cons, List.sum_cons, List.length_cons, Nat.succ_mul]
    omega

/-- A product that has a place in memory is a signed 128-bit integer. -/
theorem Term.InMemory.fits {known : Known} {t : Term} (h : t.InMemory known) :
    t.Fits known := by
  cases t with
  | elements f size c =>
    intro hp
    have hbytes : size * (known.count? c).getD 0 < UInt64.size := by
      simpa only [InMemory, Term.exact, hp, if_true, Int.natAbs_natCast] using h
    exact hbytes.trans_le (by decide)
  | _ => trivial

/-- No sum of a word and few terms that have a place in memory exceeds the signed 128-bit
integers. -/
theorem isInt128_exact {o : Offset} {known : Known} (h : o.constant < UInt64.size)
    (hterms : ∀ t ∈ o.terms, t.InMemory known) (hfew : o.terms.length < 2 ^ 62) :
    IsInt128 (o.exact known) := by
  have hsum := natAbs_sum_le hterms
  have hlength : o.terms.length * UInt64.size ≤ 2 ^ 62 * UInt64.size :=
    Nat.mul_le_mul_right _ hfew.le
  have hhalf : 2 ^ 62 * UInt64.size + UInt64.size ≤ size128 / 2 := by decide
  rw [IsInt128, exact]
  omega

/-- No total on the way through few terms that have a place in memory exceeds the signed 128-bit
integers. -/
theorem sumsFit_of_inMemory {o : Offset} {known : Known} (h : o.constant < UInt64.size)
    (hterms : ∀ t ∈ o.terms, t.InMemory known) (hfew : o.terms.length < 2 ^ 62) :
    o.SumsFit known := by
  intro i _
  have hlength : (o.upTo i).terms.length ≤ o.terms.length := List.length_take_le' _ _
  exact isInt128_exact h (fun t ht => hterms t (List.mem_of_mem_take ht)) (hlength.trans_lt hfew)

/-- **What evaluation gives.** Where sums are checked it returns exactly if no total on its way
exceeds the signed 128-bit integers, and stops otherwise. Where sums wrap, all that present fields
need is known, every product is a signed 128-bit integer, and the exact sum modulo 2^128 is a 64-bit
word; what is returned where they are checked is the exact sum itself. Fewer than 2^62 terms do not
make up for a product that is too great, and they do not stop evaluation if each has a place in
memory. -/
theorem evaluateM_eq_ok_iff {o : Offset} {known : Known} (h : o.constant < UInt64.size) :
    (∀ result, (o.evaluateM known : Stopping _) = .ok result ↔
      o.SumsFit known ∧ o.evaluate? known = result) ∧
    (∀ n, o.evaluate? known = some n ↔
      n < UInt64.size ∧ (∀ t ∈ o.terms, t.Available known ∧ t.Fits known) ∧
        (o.exact known).bmod size128 = n) ∧
    (o.SumsFit known → ∀ n, o.evaluate? known = some n ↔
      n < UInt64.size ∧ (∀ t ∈ o.terms, t.Available known ∧ t.Fits known) ∧
        o.exact known = n) ∧
    (o.terms.length < 2 ^ 62 → (∀ t ∈ o.terms, t.InWords) → o.SumsFit known →
      ∀ n, o.evaluate? known = some n ↔
        n < UInt64.size ∧ (∀ t ∈ o.terms, t.Available known) ∧ o.exact known = n) ∧
    (o.terms.length < 2 ^ 62 → (∀ t ∈ o.terms, t.InMemory known) → o.SumsFit known ∧
      ∀ n, o.evaluate? known = some n ↔
        n < UInt64.size ∧ (∀ t ∈ o.terms, t.Available known) ∧ o.exact known = n) := by
  have hexact (hsums : o.SumsFit known) (n : Nat)
      (hfits : o.exact known = n → n < UInt64.size → ∀ t ∈ o.terms, t.Fits known) :
      o.evaluate? known = some n ↔
        n < UInt64.size ∧ (∀ t ∈ o.terms, t.Available known) ∧ o.exact known = n := by
    rw [hsums.evaluate?_eq_some_iff h]
    refine and_congr_right fun hn => and_congr_left fun hsum => ?_
    exact forall₂_congr fun t ht => and_iff_left (hfits hsum hn t ht)
  refine ⟨comesTo_evaluateM h, fun n => evaluate?_eq_some_iff_bmod h,
    fun hsums n => hsums.evaluate?_eq_some_iff h, fun hfew hwords hsums n => ?_,
    fun hfew hterms => ?_⟩
  · exact hexact hsums n fun hsum hn => fits_of_exact_lt hwords hfew (by omega)
  · have hsums := sumsFit_of_inMemory h hterms hfew
    exact ⟨hsums, fun n => hexact hsums n fun _ _ t ht => (hterms t ht).fits⟩

end Offset

/-- All numbers that are known are 64-bit words. -/
structure Known.InWords (known : Known) : Prop where
  count : ∀ f n, known.count? f = some n → n < UInt64.size
  stringLength : ∀ f n, known.stringLength? f = some n → n < UInt64.size
  consumed : ∀ f n, known.consumed? f = some n → n < UInt64.size

/-- Two arrays of elements of the same size, one counted like the other, behind nine bytes. -/
def twoArrays : Offset where
  constant := 9
  terms := [.elements "a" (2 ^ 63 + 1) "n", .elements "b" (2 ^ 63 + 1) "n"]

/-- All fields are present, and all counts are the same. -/
def Known.counting (n : Nat) : Known where
  isPresent _ := true
  count? _ := some n
  stringLength? _ := none
  consumed? _ := none

/-- Without elements the two arrays are evaluated exactly. With 2^64 - 2 elements each they take
four bytes less than 2^128: evaluation stops where sums are checked, and gives a place before them
where sums wrap. -/
theorem evaluateM_twoArrays :
    twoArrays.constant < UInt64.size ∧
      (twoArrays.evaluateM (.counting 0) : Stopping _) = .ok (some 9) ∧
      (∀ result, (twoArrays.evaluateM (.counting (2 ^ 64 - 2)) : Stopping _) ≠ .ok result) ∧
      twoArrays.evaluate? (.counting (2 ^ 64 - 2)) = some 5 ∧
      twoArrays.exact (.counting (2 ^ 64 - 2)) = 2 ^ 128 + 5 := by
  have hword : twoArrays.constant < UInt64.size := by decide
  obtain ⟨hreturns, -, -, -, hfew⟩ := @Offset.evaluateM_eq_ok_iff _ (.counting 0) hword
  obtain ⟨hstops, hmod, -⟩ := @Offset.evaluateM_eq_ok_iff _ (.counting (2 ^ 64 - 2)) hword
  obtain ⟨hsums, hexact⟩ := hfew (by decide) (by decide)
  have hnine := (hexact 9).2 (by decide)
  refine ⟨hword, (hreturns _).2 ⟨hsums, hnine⟩, fun result hresult => ?_, (hmod 5).2 (by decide),
    by decide⟩
  have hsum := ((hstops result).1 hresult).1 2 (by decide)
  exact absurd hsum (by decide)

/-- It is not so that evaluation always ends, and with the exact sum where that is a word, even if
all numbers are words: it stops at the two arrays. -/
theorem not_forall_evaluateM_exact :
    ¬ ∀ (o : Offset) (known : Known), o.InWords → known.InWords →
      ∃ result, (o.evaluateM known : Stopping _) = .ok result ∧ ∀ n, result = some n ↔
        n < UInt64.size ∧ (∀ t ∈ o.terms, t.Available known) ∧ o.exact known = n := by
  intro hall
  have hwords : twoArrays.InWords := ⟨by decide, by decide⟩
  have hcounts : (Known.counting (2 ^ 64 - 2)).InWords :=
    ⟨fun _ _ hn => by cases hn; decide, nofun, nofun⟩
  obtain ⟨result, hresult, -⟩ := hall _ _ hwords hcounts
  have hstops : (twoArrays.evaluateM (.counting (2 ^ 64 - 2)) : Stopping _).toOption = none := by
    decide
  rw [hresult] at hstops
  cases hstops

end WirePlan
