/-!
# Blank characters

Texts are trimmed of blanks before they are read as operators, literals and numbers. A blank is a
character with the Unicode property `White_Space`, which is more than the four blanks of JSON and
more than the ASCII blanks.
-/

namespace WirePlan.Text

/-- The characters with the Unicode property `White_Space`. -/
def isBlank (c : Char) : Bool :=
  let n := c.toNat
  (0x09 ≤ n && n ≤ 0x0D) || n == 0x20 || n == 0x85 || n == 0xA0 || n == 0x1680 ||
    (0x2000 ≤ n && n ≤ 0x200A) || n == 0x2028 || n == 0x2029 || n == 0x202F || n == 0x205F ||
    n == 0x3000

/-- The characters without the blanks at either end. -/
def trimChars (cs : List Char) : List Char :=
  ((cs.dropWhile isBlank).reverse.dropWhile isBlank).reverse

/-- The text without the blanks at either end. -/
def trim (s : String) : String := .ofList (trimChars s.toList)

/-- There is nothing but blanks. -/
def isBlankText (cs : List Char) : Bool := cs.all isBlank

end WirePlan.Text
