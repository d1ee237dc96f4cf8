import WirePlan.Number.Binary64

/-!
# The shortest decimal that reads back

A binary64 number is written with the fewest digits that round to it again and, among those, with
the digits nearest to its exact value. The search goes through the decimal grids of one to seventeen
digits; on each grid only the two neighbours of the value can round to it. Where the point stands
and when an exponent is written is the business of a `DecimalStyle`.
-/

namespace WirePlan

/-- A decimal: `digits · 10 ^ exponent`, the last digit not zero unless all are. -/
structure Decimal where
  digits : Nat
  exponent : Int
  deriving DecidableEq, Repr

namespace Binary64

/-- A ratio of natural numbers. -/
structure Ratio where
  num : Nat
  den : Nat

/-- The ratio times a power of ten. -/
def Ratio.timesTen (r : Ratio) (power : Int) : Ratio :=
  if 0 ≤ power then ⟨r.num * powerOfTen power.toNat, r.den⟩
  else ⟨r.num, r.den * powerOfTen (-power).toNat⟩

/-- The magnitude `quarters / 4 · 2 ^ exponent` as a ratio. -/
def quartersRatio (quarters : Nat) (exponent : Int) : Ratio :=
  let (n, d) := shifted quarters 4 exponent
  ⟨n, d⟩

/-- The exact magnitude. -/
def magnitude (x : Binary64) : Ratio := quartersRatio (4 * x.significand) x.exponent

/-- The decimal `digits · 10 ^ exponent` rounds to the magnitude of `x`. -/
def roundsTo (x : Binary64) (digits : Nat) (exponent : Int) : Bool :=
  let narrow := x.significand = leastNormal ∧ leastExponent < x.exponent
  let low := (quartersRatio (4 * x.significand - (if narrow then 1 else 2)) x.exponent).timesTen
    (-exponent)
  let high := (quartersRatio (4 * x.significand + 2) x.exponent).timesTen (-exponent)
  if x.significand % 2 = 0 then
    low.num ≤ digits * low.den && digits * high.den ≤ high.num
  else
    low.num < digits * low.den && digits * high.den < high.num

/-- The number of digits before the point of the magnitude; at most zero below one tenth. -/
def pointPlace (x : Binary64) : Int :=
  let m := x.magnitude
  if m.den ≤ m.num then ((Nat.toDigits 10 (m.num / m.den)).length : Int)
  else match (List.range 400).find? fun k => m.den ≤ m.num * powerOfTen (k + 1) with
    | some k => -(k : Int)
    | none => 0

/-- The grid point with `places` digits that rounds to the magnitude: of two the nearer one, and of
two equally near ones the even one. -/
def onGrid? (x : Binary64) (places : Nat) : Option Decimal :=
  let exponent := x.pointPlace - places
  let scaled := x.magnitude.timesTen (-exponent)
  let below := scaled.num / scaled.den
  let above := below + 1
  let nearer := match compare (2 * (scaled.num % scaled.den)) scaled.den with
    | .lt => below
    | .eq => if below % 2 = 0 then below else above
    | .gt => above
  match roundsTo x below exponent, roundsTo x above exponent with
  | true, true => some ⟨nearer, exponent⟩
  | true, false => some ⟨below, exponent⟩
  | false, true => some ⟨above, exponent⟩
  | false, false => none

/-- Zeros at the end of the digits move into the exponent. -/
def dropZeros : Nat → Decimal → Decimal
  | 0, d => d
  | n + 1, d =>
    if d.digits % 10 = 0 then dropZeros n ⟨d.digits / 10, d.exponent + 1⟩ else d

/-- The fewest digits that read back. -/
def shortest (x : Binary64) : Decimal :=
  if x.significand = 0 then ⟨0, 0⟩
  else match (List.range 17).findSome? fun n => x.onGrid? (n + 1) with
    | some d => dropZeros 18 d
    | none => ⟨0, 0⟩

end Binary64

/-- How a decimal is written. -/
structure DecimalStyle where
  /-- The least place of the point, counted in digits from the first one, written positionally. -/
  leastPoint : Int
  /-- The greatest place of the point written positionally. -/
  greatestPoint : Int

/-- A decimal in a style: positional with at least one digit on either side of the point, otherwise
one digit before the point and an exponent with its sign. -/
def DecimalStyle.write (style : DecimalStyle) (d : Decimal) : List Char :=
  let digits := Nat.toDigits 10 d.digits
  let point := (digits.length : Int) + d.exponent
  if point < style.leastPoint ∨ style.greatestPoint < point then
    let mantissa := match digits with
      | first :: second :: rest => first :: '.' :: second :: rest
      | _ => digits
    let exponent := point - 1
    mantissa ++ 'e' :: (if exponent < 0 then '-' else '+') :: Nat.toDigits 10 exponent.natAbs
  else if point ≤ 0 then
    '0' :: '.' :: (List.replicate (-point).toNat '0' ++ digits)
  else if (digits.length : Int) ≤ point then
    digits ++ List.replicate (point.toNat - digits.length) '0' ++ ['.', '0']
  else
    digits.take point.toNat ++ '.' :: digits.drop point.toNat

end WirePlan
