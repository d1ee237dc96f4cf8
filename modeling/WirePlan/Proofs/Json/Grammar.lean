import Mathlib.Data.List.Chain
import WirePlan.Json.Lexeme

/-!
# The grammar of JSON

A value is a tree whose leaves are the strings, numbers and words as they are written (`Tree`). Its
tokens are written one after the other, with something before each of them and behind the last one
(`Laid`); in JSON proper these are blanks, which leave no trace (`Denotes`).

Tokens are well-formed by construction: a string consists of characters and escapes, a number of its
parts. What may stand next to what in a value is one relation between neighbours
(`Tree.isChain_tokens`): no comma stands before a closing bracket, and a scalar stands before a mark
or at the end.
-/

namespace WirePlan.Json

/-! ## Tokens -/

/-- A character of a string, as it is written. -/
inductive StringUnit where
  /-- A character that stands for itself. -/
  | plain (c : Char) (hquote : c ≠ '"') (hback : c ≠ '\\') (hcontrol : 0x20 ≤ c.toNat)
  /-- A letter behind a backslash. -/
  | short (c : Char) (hletter : c ∈ ['"', '\\', '/', 'b', 'f', 'n', 'r', 't'])
  /-- Four hexadecimal digits behind a backslash and the letter `u`. -/
  | code (digits : List Char) (hlength : digits.length = 4)
      (hdigits : ∀ d ∈ digits, (Text.digitValue? 16 d).isSome)

/-- The characters of a unit. -/
def StringUnit.chars : StringUnit → List Char
  | plain c _ _ _ => [c]
  | short c _ => ['\\', c]
  | code digits _ _ => '\\' :: 'u' :: digits

/-- A string without its quotes. -/
abbrev StringText := List StringUnit

/-- One or more decimal digits. -/
structure Digits where
  chars : List Char
  ne_nil : chars ≠ []
  isDigit : ∀ c ∈ chars, c.isDigit = true

/-- An exponent. -/
structure ExponentText where
  letter : Char
  isLetter : letter = 'e' ∨ letter = 'E'
  /-- The sign, if it is written, and whether it is a minus. -/
  minus? : Option Bool
  digits : Digits

/-- The characters of a sign that may be left out. -/
def signChars : Option Bool → List Char
  | none => []
  | some false => ['+']
  | some true => ['-']

/-- The characters of an exponent. -/
def ExponentText.chars (e : ExponentText) : List Char :=
  e.letter :: (signChars e.minus? ++ e.digits.chars)

/-- A number. -/
structure NumberText where
  negative : Bool
  integer : Digits
  /-- A leading zero stands alone. -/
  leading : ∀ rest, integer.chars = '0' :: rest → rest = []
  fraction? : Option Digits
  exponent? : Option ExponentText

/-- The characters of a number. -/
def NumberText.chars (n : NumberText) : List Char :=
  (if n.negative then ['-'] else []) ++
    (n.integer.chars ++ ((n.fraction?.elim [] fun d => '.' :: d.chars) ++
      n.exponent?.elim [] ExponentText.chars))

/-- One of the three words. -/
inductive Word where
  | null | true | false

/-- The characters of a word. -/
def Word.chars : Word → List Char
  | null => ['n', 'u', 'l', 'l']
  | true => ['t', 'r', 'u', 'e']
  | false => ['f', 'a', 'l', 's', 'e']

/-- The character of a mark. -/
def Mark.char : Mark → Char
  | openArray => '['
  | closeArray => ']'
  | openObject => '\x7b'
  | closeObject => '\x7d'
  | comma => ','
  | colon => ':'

/-- A token of a JSON text. -/
inductive Token where
  | mark (m : Mark)
  | string (s : StringText)
  | number (n : NumberText)
  | word (w : Word)

namespace Token

/-- The characters of a token. -/
def chars : Token → List Char
  | mark m => [m.char]
  | string s => '"' :: (s.flatMap StringUnit.chars ++ ['"'])
  | number n => n.chars
  | word w => w.chars

/-- The token is punctuation. -/
def isMark : Token → Bool
  | mark _ => true
  | _ => false

/-- The token closes an array or an object. -/
def isClose : Token → Bool
  | mark .closeArray | mark .closeObject => true
  | _ => false

/-- What may stand next to what in a value. -/
structure MayPrecede (a b : Token) : Prop where
  comma : a = mark .comma → b.isClose = false
  scalar : a.isMark = false → b.isMark = true

end Token

/-! ## Values -/

/-- A value as it is written. -/
inductive Tree where
  | string (s : StringText)
  | number (n : NumberText)
  | word (w : Word)
  | array (items : List Tree)
  | object (members : List (StringText × Tree))

mutual

/-- The tokens of a value. -/
def Tree.tokens : Tree → List Token
  | .string s => [.string s]
  | .number n => [.number n]
  | .word w => [.word w]
  | .array [] => [.mark .openArray, .mark .closeArray]
  | .array (v :: items) =>
    .mark .openArray :: (v.tokens ++ (moreItems items ++ [.mark .closeArray]))
  | .object [] => [.mark .openObject, .mark .closeObject]
  | .object (m :: members) =>
    .mark .openObject :: (memberTokens m ++ (moreMembers members ++ [.mark .closeObject]))

/-- The tokens of further items of an array, each behind a comma. -/
def moreItems : List Tree → List Token
  | [] => []
  | v :: items => .mark .comma :: (v.tokens ++ moreItems items)

/-- The tokens of a member of an object. -/
def memberTokens : StringText × Tree → List Token
  | (key, v) => .string key :: .mark .colon :: v.tokens

/-- The tokens of further members of an object, each behind a comma. -/
def moreMembers : List (StringText × Tree) → List Token
  | [] => []
  | m :: members => .mark .comma :: (memberTokens m ++ moreMembers members)

end

/-- A value does not begin with a closing bracket. -/
theorem Tree.exists_tokens_eq (v : Tree) :
    ∃ a rest, v.tokens = a :: rest ∧ a.isClose = false := by
  cases v with
  | string _ | number _ | word _ => exact ⟨_, _, by rw [tokens], rfl⟩
  | array items => cases items <;> exact ⟨_, _, by rw [tokens], rfl⟩
  | object members => cases members <;> exact ⟨_, _, by rw [tokens], rfl⟩

namespace Token

/-- A mark other than a comma may stand before anything. -/
theorem MayPrecede.of_mark {m : Mark} (h : m ≠ .comma) (b : Token) : MayPrecede (mark m) b where
  comma hm := by
    cases hm
    exact absurd rfl h
  scalar h := by cases h

/-- A comma may stand before what closes nothing. -/
theorem MayPrecede.of_comma {b : Token} (h : b.isClose = false) : MayPrecede (mark .comma) b where
  comma _ := h
  scalar h := by cases h

/-- A scalar may stand before a mark. -/
theorem MayPrecede.of_scalar {a b : Token} (ha : a.isMark = false) (hb : b.isMark = true) :
    MayPrecede a b where
  comma hm := by
    rw [hm] at ha
    cases ha
  scalar _ := hb

end Token

/-- What may stand behind a value: a mark, and behind it whatever may stand there. -/
structure Follows (k : List Token) : Prop where
  isChain : k.IsChain Token.MayPrecede
  isMark : ∀ b ∈ k.head?, b.isMark = true

theorem Follows.nil : Follows [] := ⟨.nil, fun _ h => by cases h⟩

theorem Follows.mark {m : Mark} (hm : m ≠ .comma) {k : List Token}
    (hk : k.IsChain Token.MayPrecede) : Follows (.mark m :: k) where
  isChain := List.isChain_cons.2 ⟨fun b _ => .of_mark hm b, hk⟩
  isMark _ hb := by
    cases hb
    rfl

theorem Follows.comma {k : List Token} (hopens : ∀ b ∈ k.head?, b.isClose = false)
    (hk : k.IsChain Token.MayPrecede) : Follows (.mark .comma :: k) where
  isChain := List.isChain_cons.2 ⟨fun b hb => .of_comma (hopens b hb), hk⟩
  isMark _ hb := by
    cases hb
    rfl

theorem Follows.scalar {a : Token} (ha : a.isMark = false) {k : List Token} (hk : Follows k) :
    (a :: k).IsChain Token.MayPrecede :=
  List.isChain_cons.2 ⟨fun b hb => .of_scalar ha (hk.isMark b hb), hk.isChain⟩

mutual

/-- A value may stand before whatever may stand behind it. -/
theorem Tree.isChain_append (v : Tree) {k : List Token} (hk : Follows k) :
    (v.tokens ++ k).IsChain Token.MayPrecede := by
  cases v with
  | string s => exact hk.scalar rfl
  | number n => exact hk.scalar rfl
  | word w => exact hk.scalar rfl
  | array items =>
    have hclose : Follows (.mark .closeArray :: k) := .mark (by decide) hk.isChain
    cases items with
    | nil => exact (Follows.mark (by decide) hclose.isChain).isChain
    | cons v items =>
      have hitems := v.isChain_append (follows_moreItems items hclose)
      simpa [Tree.tokens] using (Follows.mark (m := .openArray) (by decide) hitems).isChain
  | object members =>
    have hclose : Follows (.mark .closeObject :: k) := .mark (by decide) hk.isChain
    cases members with
    | nil => exact (Follows.mark (by decide) hclose.isChain).isChain
    | cons m members =>
      have hmembers := isChain_memberTokens m (follows_moreMembers members hclose)
      simpa [Tree.tokens] using (Follows.mark (m := .openObject) (by decide) hmembers).isChain

theorem follows_moreItems (items : List Tree) {k : List Token} (hk : Follows k) :
    Follows (moreItems items ++ k) := by
  cases items with
  | nil => exact hk
  | cons v items =>
    have hitems := v.isChain_append (follows_moreItems items hk)
    obtain ⟨a, rest, hv, hopens⟩ := v.exists_tokens_eq
    have hcomma : Follows (.mark .comma :: (v.tokens ++ (moreItems items ++ k))) := by
      refine .comma (fun b hb => ?_) hitems
      rw [hv] at hb
      cases hb
      exact hopens
    simpa [moreItems] using hcomma

theorem isChain_memberTokens (m : StringText × Tree) {k : List Token} (hk : Follows k) :
    (memberTokens m ++ k).IsChain Token.MayPrecede := by
  obtain ⟨key, v⟩ := m
  have hcolon : Follows (.mark .colon :: (v.tokens ++ k)) := .mark (by decide) (v.isChain_append hk)
  simpa [memberTokens] using hcolon.scalar (a := .string key) rfl

theorem follows_moreMembers (members : List (StringText × Tree)) {k : List Token}
    (hk : Follows k) : Follows (moreMembers members ++ k) := by
  cases members with
  | nil => exact hk
  | cons m members =>
    have hmembers := isChain_memberTokens m (follows_moreMembers members hk)
    have hcomma : Follows (.mark .comma :: (memberTokens m ++ (moreMembers members ++ k))) := by
      refine .comma (fun b hb => ?_) hmembers
      obtain ⟨key, v⟩ := m
      cases hb
      rfl
    simpa [moreMembers] using hcomma

end

/-- The tokens of a value stand next to each other as they may. -/
theorem Tree.isChain_tokens (v : Tree) : v.tokens.IsChain Token.MayPrecede := by
  simpa using v.isChain_append .nil

/-! ## Texts -/

/-- The text consists of tokens, with something that the token admits before each of them and
something behind the last one. -/
inductive Laid (lead : Token → List Char → Prop) (tail : List Char → Prop) :
    List Token → List Char → Prop
  | nil (gap : List Char) (h : tail gap) : Laid lead tail [] gap
  | cons {t : Token} (gap : List Char) (h : lead t gap) {ts : List Token} {cs : List Char}
      (hrest : Laid lead tail ts cs) : Laid lead tail (t :: ts) (gap ++ (t.chars ++ cs))

/-- What may stand before a token may be more. -/
theorem Laid.mono {lead lead' : Token → List Char → Prop} {tail tail' : List Char → Prop}
    {ts : List Token} {cs : List Char} (h : Laid lead tail ts cs)
    (hlead : ∀ t gap, lead t gap → lead' t gap) (htail : ∀ gap, tail gap → tail' gap) :
    Laid lead' tail' ts cs := by
  induction h with
  | nil gap h => exact .nil gap (htail gap h)
  | cons gap h _ ih => exact .cons gap (hlead _ gap h) ih

/-- Nothing but blanks. -/
def Blanks (gap : List Char) : Prop := ∀ c ∈ gap, isSpace c = true

theorem Blanks.nil : Blanks [] := fun _ hc => absurd hc List.not_mem_nil

theorem Blanks.append {gap gap' : List Char} (h : Blanks gap) (h' : Blanks gap') :
    Blanks (gap ++ gap') :=
  fun c hc => (List.mem_append.1 hc).elim (h c) (h' c)

/-- The text consists of tokens with blanks between them. -/
abbrev Spaced : List Token → List Char → Prop := Laid (fun _ => Blanks) Blanks

/-- The text is a JSON text for a value. -/
def Denotes (text : List Char) (v : Tree) : Prop := Spaced v.tokens text

end WirePlan.Json
