import WirePlan.Text.Quoted
import WirePlan.Value.Basic

/-!
# The text of a value

Integers are decimal, identifiers hexadecimal in five groups, strings quoted, addresses in their
customary notation. An address of sixteen bytes is written in groups of four hexadecimal digits
without leading zeros; the first of the longest runs of at least two zero groups is left out, and an
address that embeds one of four bytes ends with that in decimal.
-/

namespace WirePlan

namespace Value

/-- Four decimal numbers between points. -/
def ipv4Text (bytes : List UInt8) : String :=
  ".".intercalate (bytes.map fun b => toString b.toNat)

/-- The pairs of bytes as numbers. -/
def groups : List UInt8 → List Nat
  | a :: b :: rest => (a.toNat * 256 + b.toNat) :: groups rest
  | _ => []

/-- Groups between colons. -/
def groupsText (gs : List Nat) : String := ":".intercalate (gs.map Text.hexadecimal)

/-- The number of zero groups in a row at the head. -/
def zeroRun (gs : List Nat) : Nat := (gs.takeWhile (· = 0)).length

/-- The start and length of the first of the longest runs of zero groups. -/
def longestZeroRun (gs : List Nat) : Nat × Nat :=
  (List.range gs.length).foldl
    (fun best i =>
      let n := zeroRun (gs.drop i)
      if best.2 < n then (i, n) else best)
    (0, 0)

/-- An address of sixteen bytes. -/
def ipv6Text (bytes : List UInt8) : String :=
  let gs := groups bytes
  if gs.take 6 = [0, 0, 0, 0, 0, 0xFFFF] then "::ffff:" ++ ipv4Text (bytes.drop 12)
  else
    let (start, length) := longestZeroRun gs
    if 1 < length then
      groupsText (gs.take start) ++ "::" ++ groupsText (gs.drop (start + length))
    else groupsText gs

/-- Two hexadecimal digits for each byte. -/
def hexText (bytes : List UInt8) : String :=
  .join (bytes.map fun b => Text.paddedHexadecimal 2 b.toNat)

/-- An identifier: groups of four, two, two, two and six bytes. -/
def uuidText (bytes : List UInt8) : String :=
  "-".intercalate [hexText (bytes.take 4), hexText ((bytes.drop 4).take 2),
    hexText ((bytes.drop 6).take 2), hexText ((bytes.drop 8).take 2), hexText (bytes.drop 10)]

mutual

/-- The text of a value. -/
def text : Value → String
  | .int f w => toString (if f.isSigned then w.toInt else (w.toNat : Int))
  | .uuid b => uuidText b.val
  | .string s => Text.quote s
  | .ipv4 b => ipv4Text b.val
  | .ipv6 b => ipv6Text b.val
  | .array items => "[" ++ ", ".intercalate (itemTexts items) ++ "]"
  | .struct fields => "\x7b" ++ ", ".intercalate (fieldTexts fields) ++ "\x7d"

/-- The texts of items. -/
def itemTexts : List Value → List String
  | [] => []
  | v :: rest => text v :: itemTexts rest

/-- The texts of the fields of a struct, in key order. -/
def fieldTexts : List (String × Value) → List String
  | [] => []
  | (name, v) :: rest => (name ++ ": " ++ text v) :: fieldTexts rest

end

end Value

end WirePlan
