import WirePlan.Json.Value
import WirePlan.Text.Numeral

/-!
# The lexemes of a JSON text

A JSON text is split into marks, strings and other scalars; blanks between them leave no trace
(`lex`). A lexeme remembers what follows its first character, so that a reader that refuses the
lexeme can say where it stands; a scalar that is malformed says itself where it goes wrong, and
nothing behind it is split, because no reader gets past it.
-/

namespace WirePlan.Json

/-- What is left of a text behind some character. -/
abbrev Rest := List Char

/-- The punctuation of JSON. -/
inductive Mark where
  | openArray | closeArray | openObject | closeObject | comma | colon
  deriving DecidableEq, Repr

/-- A part of a JSON text. -/
inductive Lexeme where
  /-- A punctuation mark. -/
  | mark (mark : Mark) (rest : Rest)
  /-- A string; `.error` holds what follows the character at which it is malformed. -/
  | text (rest : Rest) (content : Except Rest String)
  /-- A number or one of the three words; `.error` as for strings. -/
  | scalar (rest : Rest) (content : Except Rest Json)
  /-- A character that starts nothing. -/
  | stray (rest : Rest)

/-- The text behind the first character of a lexeme. -/
def Lexeme.rest : Lexeme → Rest
  | .mark _ r | .text r _ | .scalar r _ | .stray r => r

/-- The blanks that JSON allows between lexemes. -/
def isSpace (c : Char) : Bool := c == ' ' || c == '\t' || c == '\n' || c == '\r'

/-- The mark that a character is. -/
def Mark.ofChar? : Char → Option Mark
  | '[' => some .openArray
  | ']' => some .closeArray
  | '\x7b' => some .openObject
  | '\x7d' => some .closeObject
  | ',' => some .comma
  | ':' => some .colon
  | _ => none

/-! ## Strings -/

/-- The text behind its first `n` bytes; a character that they cut through is left out. -/
def dropBytes : Nat → List Char → List Char
  | 0, cs => cs
  | _, [] => []
  | n + 1, c :: cs => dropBytes (n + 1 - c.utf8Size) cs

/-- The bytes of a text in UTF-8. -/
def byteCount (cs : List Char) : Nat := cs.foldl (fun n c => n + c.utf8Size) 0

/-- Four hexadecimal digits. A text that ends within the next four bytes is malformed at its end,
any other that has no four digits at the fourth byte. -/
def hexQuad (cs : List Char) : Except Rest Nat :=
  if byteCount (cs.take 4) < 4 then .error []
  else match Text.natural? 16 (cs.take 4) with
    | some n => .ok n
    | none => .error (dropBytes 4 cs)

/-- The character that a single letter escapes. -/
def escaped? : Char → Option Char
  | '"' => some '"'
  | '\\' => some '\\'
  | '/' => some '/'
  | 'b' => some '\x08'
  | 'f' => some '\x0c'
  | 'n' => some '\n'
  | 'r' => some '\r'
  | 't' => some '\t'
  | _ => none

/-- The leading half of a pair that stands for one character beyond the first plane. -/
def isLeadingHalf (n : Nat) : Bool := 0xD800 ≤ n && n ≤ 0xDBFF

/-- The trailing half of such a pair. -/
def isTrailingHalf (n : Nat) : Bool := 0xDC00 ≤ n && n ≤ 0xDFFF

/-- The escape behind a backslash: the character it denotes and how many characters it takes. Halves
of a pair must stand together. -/
def escape : List Char → Except Rest (Char × Nat)
  | [] => .error []
  | 'u' :: cs => do
    let n ← hexQuad cs
    if isTrailingHalf n then .error (cs.drop 4)
    else if isLeadingHalf n then
      match cs.drop 4 with
      | '\\' :: 'u' :: low =>
        let m ← hexQuad low
        if isTrailingHalf m then
          .ok (Char.ofNat (0x10000 + (n - 0xD800) * 0x400 + (m - 0xDC00)), 11)
        else .error (low.drop 4)
      | '\\' :: _ :: rest => .error rest
      | _ :: rest => .error rest
      | [] => .error []
    else .ok (Char.ofNat n, 5)
  | c :: rest =>
    match escaped? c with
    | some d => .ok (d, 1)
    | none => .error rest

/-- The content of a string behind its opening quote, and how many characters it takes together with
the closing quote. `skip` characters belong to an escape that is read already; `done` is the content
so far, the last character first. -/
def stringFrom (skip : Nat) (done : List Char) (count : Nat) :
    List Char → Except Rest (String × Nat)
  | [] => .error []
  | c :: rest =>
    match skip with
    | n + 1 => stringFrom n done (count + 1) rest
    | 0 =>
      if c = '"' then .ok (.ofList done.reverse, count + 1)
      else if c = '\\' then
        match escape rest with
        | .ok (d, n) => stringFrom n (d :: done) (count + 1) rest
        | .error e => .error e
      else if c.toNat < 0x20 then .error rest
      else stringFrom 0 (c :: done) (count + 1) rest

/-! ## Numbers -/

/-- One or more digits; `.error` where the first one is missing. -/
def someDigits (cs : List Char) : Except Rest (List Char) :=
  match cs.takeWhile Char.isDigit with
  | [] => .error (cs.drop 1)
  | digits => .ok digits

/-- The digits that a 64-bit word can hold, and the digits that are left. -/
def wordDigits (word : Nat) : List Char → Nat × List Char
  | [] => (word, [])
  | c :: cs =>
    let next := word * 10 + (c.toNat - 48)
    if next < UInt64.size then wordDigits next cs else (word, c :: cs)

/-- The parts of a written number. -/
structure NumberParts where
  negative : Bool
  integer : List Char
  fraction : Option (List Char)
  /-- The sign and digits of the exponent. -/
  exponent : Option (Bool × List Char)

/-- The characters of a fraction behind the integer digits, with the point. -/
def fractionPart (cs : List Char) : Except Rest (Option (List Char) × Nat) :=
  match cs with
  | '.' :: rest => do
    let digits ← someDigits rest
    return (some digits, 1 + digits.length)
  | _ => .ok (none, 0)

/-- The characters of an exponent, with its letter and sign. -/
def exponentPart (cs : List Char) : Except Rest (Option (Bool × List Char) × Nat) :=
  let signed (negative : Bool) (lead : Nat) (rest : List Char) := do
    let digits ← someDigits rest
    return (some (negative, digits), lead + digits.length)
  match cs with
  | e :: rest =>
    if e = 'e' ∨ e = 'E' then
      match rest with
      | '+' :: rest => signed false 2 rest
      | '-' :: rest => signed true 2 rest
      | _ => signed false 1 rest
    else .ok (none, 0)
  | [] => .ok (none, 0)

/-- The parts of the number at the head of a text and how many characters they take. A leading zero
stands alone. -/
def numberParts (cs : List Char) : Except Rest (NumberParts × Nat) := do
  let (negative, sign, cs) := match cs with
    | '-' :: rest => (true, 1, rest)
    | _ => (false, 0, cs)
  let integer ← someDigits cs
  match integer with
  | '0' :: _ :: _ => .error (cs.drop 2)
  | _ =>
    let cs := cs.drop integer.length
    let (fraction, fractionLength) ← fractionPart cs
    let (exponent, exponentLength) ← exponentPart (cs.drop fractionLength)
    return (⟨negative, integer, fraction, exponent⟩,
      sign + integer.length + fractionLength + exponentLength)

/-- Exponents are held in a signed 32-bit word. -/
def greatestExponentText : Nat := 0x7FFFFFFF

/-- The real number that the parts denote: the digits that fit a 64-bit word are the significand,
further digits of the integer raise the exponent and further digits of the fraction are dropped.
`none` when it is greater than every binary64 number. -/
def NumberParts.real? (p : NumberParts) : Option Binary64 := do
  let (word, dropped) := wordDigits 0 p.integer
  let fraction := p.fraction.getD []
  let (significand, unread) := wordDigits word fraction
  let base : Int := (dropped.length : Int) - (fraction.length - unread.length : Nat)
  match p.exponent with
  | none => return (← Binary64.scale? significand base).signed p.negative
  | some (negative, digits) =>
    let e := Nat.ofDigitChars 10 digits 0
    if greatestExponentText < e then
      if significand ≠ 0 ∧ !negative then none else return Binary64.zero p.negative
    else
      let total := if negative then base - e else base + e
      return (← Binary64.scale? significand total).signed p.negative

/-- The number that the parts denote. -/
def NumberParts.value? (p : NumberParts) : Option Number :=
  let n := Nat.ofDigitChars 10 p.integer 0
  let whole := p.fraction.isNone && p.exponent.isNone
  if whole && !p.negative && n < UInt64.size then some (.integer n)
  else if whole && p.negative && 0 < n && n ≤ Int64.size / 2 then some (.integer (-(n : Int)))
  else p.real?.map .real

/-- The number at the head of a text and how many characters it takes. -/
def numberAt (cs : List Char) : Except Rest (Number × Nat) := do
  let (parts, count) ← numberParts cs
  match parts.value? with
  | some n => return (n, count)
  | none => .error (cs.drop count)

/-! ## Words -/

/-- The rest of a word must stand there in full. -/
def word : (expected : List Char) → List Char → Except Rest Unit
  | [], _ => .ok ()
  | _ :: _, [] => .error []
  | e :: expected, c :: cs => if c = e then word expected cs else .error cs

/-- The value and the remaining letters of the word that starts with a letter. -/
def wordOf? : Char → Option (Json × List Char)
  | 'n' => some (.null, ['u', 'l', 'l'])
  | 't' => some (.bool true, ['r', 'u', 'e'])
  | 'f' => some (.bool false, ['a', 'l', 's', 'e'])
  | _ => none

/-! ## The whole text -/

/-- The lexemes of a text behind `skip` characters that belong to a lexeme already read. -/
def lexFrom : (skip : Nat) → List Char → List Lexeme
  | _, [] => []
  | n + 1, _ :: rest => lexFrom n rest
  | 0, c :: rest =>
    if isSpace c then lexFrom 0 rest
    else match Mark.ofChar? c with
    | some m => .mark m rest :: lexFrom 0 rest
    | none =>
      if c = '"' then
        match stringFrom 0 [] 0 rest with
        | .ok (s, n) => .text rest (.ok s) :: lexFrom n rest
        | .error e => [.text rest (.error e)]
      else if c = '-' || c.isDigit then
        match numberAt (c :: rest) with
        | .ok (v, n) => .scalar rest (.ok (.number v)) :: lexFrom (n - 1) rest
        | .error e => [.scalar rest (.error e)]
      else match wordOf? c with
        | some (v, letters) =>
          match word letters rest with
          | .ok () => .scalar rest (.ok v) :: lexFrom letters.length rest
          | .error e => [.scalar rest (.error e)]
        | none => [.stray rest]

/-- The lexemes of a text. -/
def lex (cs : List Char) : List Lexeme := lexFrom 0 cs

end WirePlan.Json
