/-!
# Numerals

Numbers in schemas may be written as text: decimal digits, or hexadecimal digits behind a marker
that the caller has removed. A numeral has at least one digit; a single leading plus sign is
allowed, leading zeros are allowed, and a value outside the range asked for is no numeral at all.
-/

namespace WirePlan.Text

/-- The value of a digit of a base of at most sixteen; letters may be of either case. -/
def digitValue? (base : Nat) (c : Char) : Option Nat :=
  let n := c.toNat
  let value :=
    if 48 ≤ n ∧ n ≤ 57 then n - 48
    else if 97 ≤ n ∧ n ≤ 102 then n - 87
    else if 65 ≤ n ∧ n ≤ 70 then n - 55
    else base
  if value < base then some value else none

/-- The number that digits denote after `start`, most significant digit first. -/
def digitsValue? (base : Nat) : (start : Nat) → List Char → Option Nat
  | start, [] => some start
  | start, c :: cs =>
    match digitValue? base c with
    | some d => digitsValue? base (start * base + d) cs
    | none => none

/-- One or more digits. -/
def natural? (base : Nat) : List Char → Option Nat
  | [] => none
  | c :: cs => digitsValue? base 0 (c :: cs)

/-- Digits behind an optional plus sign, for a value below `bound`. -/
def unsigned? (base bound : Nat) (cs : List Char) : Option Nat :=
  let digits := match cs with
    | '+' :: rest => rest
    | _ => cs
  match natural? base digits with
  | some n => if n < bound then some n else none
  | none => none

/-- Decimal digits behind an optional sign, for a value that fits a signed 64-bit word. -/
def signed64? : List Char → Option Int
  | '-' :: rest =>
    match natural? 10 rest with
    | some n => if n ≤ Int64.size / 2 then some (-(n : Int)) else none
    | none => none
  | cs => (unsigned? 10 (Int64.size / 2) cs).map Int.ofNat

/-- The digits behind a hexadecimal marker, `0x` or `0X`. -/
def afterHexMarker? : List Char → Option (List Char)
  | '0' :: 'x' :: rest => some rest
  | '0' :: 'X' :: rest => some rest
  | _ => none

/-- Lower-case hexadecimal digits. -/
def hexDigits (n : Nat) : List Char := Nat.toDigits 16 n

/-- The number in lower-case hexadecimal. -/
def hexadecimal (n : Nat) : String := .ofList (hexDigits n)

/-- The number in lower-case hexadecimal, filled up with zeros on the left to `width` digits. -/
def paddedHexadecimal (width n : Nat) : String :=
  let digits := hexDigits n
  .ofList (List.replicate (width - digits.length) '0' ++ digits)

end WirePlan.Text
