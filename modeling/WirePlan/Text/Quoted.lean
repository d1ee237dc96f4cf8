import WirePlan.Text.Numeral
import WirePlan.Text.Printable

/-!
# Quoted texts

A quoted text stands between double quotes, with escapes for the quote, the backslash, tab, line
feed, carriage return and NUL, and with the code point in braces for every other character that has
no visible form.
-/

namespace WirePlan.Text

/-- One character as it stands between quotes. -/
def escapeChar (c : Char) : List Char :=
  match c with
  | '\x00' => ['\\', '0']
  | '\t' => ['\\', 't']
  | '\n' => ['\\', 'n']
  | '\r' => ['\\', 'r']
  | '"' => ['\\', '"']
  | '\\' => ['\\', '\\']
  | c => if isPrintable c then [c] else "\\u\x7b".toList ++ hexDigits c.toNat ++ ['\x7d']

/-- The text between double quotes, escaped. -/
def quote (s : String) : String :=
  .ofList ('"' :: s.toList.flatMap escapeChar ++ ['"'])

end WirePlan.Text
