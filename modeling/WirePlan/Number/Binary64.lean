/-!
# Numbers in binary64

A schema may hold numbers with a fraction or an exponent. None of them is wanted anywhere, but an
error names the number that was found, so its value has to be the binary64 number nearest to each
intermediate result. Values are a sign, a significand and a power of two; rounding takes an exact
quotient of natural numbers to the nearest value, a tie to the even significand.
-/

namespace WirePlan

/-- The finite number `significand · 2 ^ exponent` under its sign. -/
structure Binary64 where
  negative : Bool
  significand : Nat
  exponent : Int
  deriving DecidableEq, Repr

namespace Binary64

/-- The least exponent: that of the subnormal numbers. -/
def leastExponent : Int := -1074

/-- The greatest exponent of a finite number. -/
def greatestExponent : Int := 971

/-- The least significand of a number that is not subnormal: a leading one and 52 more bits. -/
def leastNormal : Nat := 1 <<< 52

/-- Ten to some power. -/
def powerOfTen (k : Nat) : Nat := Nat.pow 10 k

/-- Zero under the given sign. -/
def zero (negative : Bool) : Binary64 := ⟨negative, 0, leastExponent⟩

/-- `num · 2 ^ shift / den`, as a numerator and a denominator. -/
def shifted (num den : Nat) (shift : Int) : Nat × Nat :=
  if 0 ≤ shift then (num <<< shift.toNat, den) else (num, den <<< (-shift).toNat)

/-- The quotient rounded to the nearest natural number, a tie to the even one. -/
def roundHalfEven (num den : Nat) : Nat :=
  let q := num / den
  let twice := 2 * (num % den)
  if twice < den then q
  else if den < twice then q + 1
  else if q % 2 = 0 then q else q + 1

/-- The value nearest to `num · 2 ^ shift / den`; `none` beyond the greatest finite number. -/
def ofQuotient (negative : Bool) (num den : Nat) (shift : Int) : Option Binary64 :=
  if num = 0 then some (zero negative) else
  -- With this exponent the scaled quotient lies between 2 ^ 51 and 2 ^ 53.
  let guess : Int := (num.log2 : Int) - den.log2 + shift - 52
  let (n, d) := shifted num den (shift - guess)
  let exponent := max leastExponent (if n < d * leastNormal then guess - 1 else guess)
  let (n, d) := shifted num den (shift - exponent)
  let significand := roundHalfEven n d
  let (significand, exponent) :=
    if significand = 2 * leastNormal then (leastNormal, exponent + 1) else (significand, exponent)
  if significand = 0 then some (zero negative)
  else if exponent ≤ greatestExponent then some ⟨negative, significand, exponent⟩
  else none

/-- The value nearest to a natural number. -/
def ofNat? (n : Nat) : Option Binary64 := ofQuotient false n 1 0

/-- The value nearest to the product. -/
def mul? (x y : Binary64) : Option Binary64 :=
  ofQuotient (x.negative != y.negative) (x.significand * y.significand) 1 (x.exponent + y.exponent)

/-- The value nearest to the quotient; `none` for division by zero. -/
def div? (x y : Binary64) : Option Binary64 :=
  if y.significand = 0 then none
  else ofQuotient (x.negative != y.negative) x.significand y.significand (x.exponent - y.exponent)

/-- The number under the other sign, when asked for. -/
def signed (negative : Bool) (x : Binary64) : Binary64 := { x with negative := negative }

/-- The greatest power of ten that is a finite number. -/
def greatestPowerOfTen : Nat := 308

/-- A significand scaled by a power of ten in one rounded step; exponents too small for one
division take two, and any that are smaller still give zero. -/
def scale? (significand : Nat) (exponent : Int) : Option Binary64 := do
  let x ← ofNat? significand
  if significand = 0 then return x
  let top ← ofNat? (powerOfTen greatestPowerOfTen)
  if (greatestPowerOfTen : Int) < exponent then none
  else if 0 ≤ exponent then x.mul? (← ofNat? (powerOfTen exponent.toNat))
  else if -(greatestPowerOfTen : Int) ≤ exponent then
    x.div? (← ofNat? (powerOfTen (-exponent).toNat))
  else if -(2 * greatestPowerOfTen : Int) ≤ exponent then
    (← x.div? top).div? (← ofNat? (powerOfTen (-exponent - greatestPowerOfTen).toNat))
  else return zero false

end Binary64

end WirePlan
