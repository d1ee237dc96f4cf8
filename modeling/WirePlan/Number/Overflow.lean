/-!
# Sums of machine words

Byte counts and seeds are 64-bit words, and offsets are evaluated over signed 128-bit integers. What
becomes of a sum that its type does not hold is left to the build: one that checks its sums stops
there, one that does not wraps. So what adds is written for any monad that tells what its sums come
to (`Arithmetic`), and the builds are two such monads. `Stopping` is the one that checks; in `Id`
sums wrap and nothing stops.
-/

namespace WirePlan

/-- The low 64 bits of a number. -/
def wrap64 (n : Nat) : Nat := n % UInt64.size

/-- The number of values of a word of 128 bits. -/
def size128 : Nat := UInt64.size * UInt64.size

/-- A signed 128-bit integer. -/
def IsInt128 (a : Int) : Prop := -(size128 / 2 : Int) ≤ a ∧ a < (size128 / 2 : Int)

instance (a : Int) : Decidable (IsInt128 a) := inferInstanceAs (Decidable (_ ∧ _))

/-- A sum that its type does not hold. -/
structure Overflow where
  left : Int
  right : Int
  deriving DecidableEq, Repr

/-- What a run comes to that stops at the first sum that its type does not hold. -/
abbrev Stopping := Except Overflow

/-- How sums are made. -/
class Arithmetic (m : Type → Type) where
  /-- The sum of two 64-bit words. -/
  addWord : Nat → Nat → m Nat
  /-- The sum of two signed 128-bit integers. -/
  addInt128 : Int → Int → m Int

export Arithmetic (addWord addInt128)

instance : Arithmetic Id where
  addWord a b := wrap64 (a + b)
  addInt128 a b := (a + b).bmod size128

instance : Arithmetic Stopping where
  addWord a b := if a + b < UInt64.size then .ok (a + b) else .error ⟨a, b⟩
  addInt128 a b := if IsInt128 (a + b) then .ok (a + b) else .error ⟨a, b⟩

end WirePlan
