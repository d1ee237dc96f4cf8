import WirePlan.Number.Overflow
import WirePlan.Proofs.Outcome

/-!
# Runs that stop at a sum

What is written for every build is run with two of them: `Stopping`, which ends at the first sum
that its type does not hold, and `Id`, in which sums wrap. A run in the former comes to what it
comes to in the latter exactly where all its sums fit (`ComesTo`). This holds for a sum
(`comesTo_addWord`, `comesTo_addInt128`) and carries over to all that is put together from sums, and
the conditions of the parts join to that of the whole.
-/

namespace WirePlan

/-- A signed 128-bit integer wraps to itself. -/
theorem IsInt128.bmod {a : Int} (h : IsInt128 a) : a.bmod size128 = a := by
  have heven : ((size128 / 2 : Nat) : Int) * 2 = size128 := by decide
  obtain ⟨hlow, hhigh⟩ := h
  exact Int.bmod_eq_of_le_mul_two (by omega) (by omega)

/-- Whatever wraps wraps to a signed 128-bit integer. -/
theorem isInt128_bmod (a : Int) : IsInt128 (a.bmod size128) := by
  have hpos : 0 < size128 := by decide
  have heven : ((size128 : Int) + 1) / 2 = size128 / 2 := by decide
  exact ⟨Int.le_bmod hpos, heven ▸ Int.bmod_lt hpos⟩

theorem wrap64_of_lt {n : Nat} (h : n < UInt64.size) : wrap64 n = n := Nat.mod_eq_of_lt h

/-- The computation comes to this result exactly if the condition holds, and to no other. -/
def ComesTo {ε α : Type} (x : Except ε α) (fits : Prop) (a : α) : Prop :=
  ∀ b, x = .ok b ↔ fits ∧ a = b

namespace ComesTo

variable {ε α β : Type} {x : Except ε α} {fits fits' : Prop} {a : α}

theorem iff (h : ComesTo x fits a) (hfits : fits ↔ fits') : ComesTo x fits' a := fun b => by
  rw [h b, hfits]

theorem pure (a : α) : ComesTo (pure a : Except ε α) True a := fun b => by
  rw [pure_eq_ok, true_and]

theorem bind {f : α → Except ε β} {b : β} (h : ComesTo x fits a) (hf : ComesTo (f a) fits' b) :
    ComesTo (x >>= f) (fits ∧ fits') b := fun c => by
  rw [bind_eq_ok, and_assoc]
  constructor
  · rintro ⟨a', hx, hc⟩
    obtain ⟨hfits, rfl⟩ := (h a').1 hx
    exact ⟨hfits, (hf c).1 hc⟩
  · rintro ⟨hfits, hc⟩
    exact ⟨a, (h a).2 ⟨hfits, rfl⟩, (hf c).2 hc⟩

theorem map (f : α → β) (h : ComesTo x fits a) : ComesTo (f <$> x) fits (f a) := fun b => by
  rw [map_eq_ok]
  constructor
  · rintro ⟨a', hx, rfl⟩
    obtain ⟨hfits, rfl⟩ := (h a').1 hx
    exact ⟨hfits, rfl⟩
  · rintro ⟨hfits, rfl⟩
    exact ⟨a, (h a).2 ⟨hfits, rfl⟩, rfl⟩

theorem mapM {f : α → Except ε β} {g : α → β} {fits : α → Prop} {xs : List α}
    (h : ∀ x ∈ xs, ComesTo (f x) (fits x) (g x)) :
    ComesTo (xs.mapM f) (∀ x ∈ xs, fits x) (xs.map g) := by
  induction xs with
  | nil => exact (pure []).iff (by simp)
  | cons x xs ih =>
    obtain ⟨hx, hxs⟩ := List.forall_mem_cons.1 h
    simp only [List.mapM_cons, bind_pure_comp]
    exact (hx.bind ((ih hxs).map (g x :: ·))).iff List.forall_mem_cons.symm

end ComesTo

/-- A sum of words is made where it is a word. -/
theorem comesTo_addWord (a b : Nat) :
    ComesTo (addWord a b : Stopping Nat) (a + b < UInt64.size) (wrap64 (a + b)) := fun c => by
  have hsum : (addWord a b : Stopping Nat) = .ok c ↔ a + b < UInt64.size ∧ a + b = c := ite_eq_ok
  rw [hsum]
  exact and_congr_right fun h => by rw [wrap64_of_lt h]

/-- A sum of signed 128-bit integers is made where it is one. -/
theorem comesTo_addInt128 (a b : Int) :
    ComesTo (addInt128 a b : Stopping Int) (IsInt128 (a + b)) ((a + b).bmod size128) := fun c => by
  have hsum : (addInt128 a b : Stopping Int) = .ok c ↔ IsInt128 (a + b) ∧ a + b = c := ite_eq_ok
  rw [hsum]
  exact and_congr_right fun h => by rw [h.bmod]

end WirePlan
