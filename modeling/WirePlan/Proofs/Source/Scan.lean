import WirePlan.Source.Blanking

/-!
# Scanning a source character by character

Blanking takes strings, comments and trailing commas as wholes. The scanner here knows no wholes: it
goes from left to right, one character at a time with a look at the next one, and keeps what it
stands in (`Mode`). What it stands in before and behind a character tells which part of the text the
character belongs to (`Mode.marks`), and what it stands in at the end tells whether the text ends
inside something that is never closed (`Mode.after`).

The two agree on every whole (`Reads`): a string or a comment of some length is what the scanner
marks as such until it stands in plain text again (`reads_stringRest`, `reads_comment`), and one
that is never closed leaves it inside (`isOpen_after_string`, `isOpen_after_block`).
-/

namespace WirePlan.Source

/-- What a scan stands in. The markers of block comments have two characters each, and between them
the scan stands in the marker. -/
inductive Mode where
  | plain
  | string
  /-- Behind a backslash in a string. -/
  | escaped
  | line
  | blockOpener
  | block
  | blockCloser
  deriving DecidableEq, Repr

/-- The parts of a text. Quotes and comment markers belong to what they enclose. -/
inductive Part where
  | text
  | string
  | comment
  deriving DecidableEq, Repr

namespace Mode

/-- The part that goes on. -/
def part : Mode → Part
  | plain => .text
  | string | escaped => .string
  | line | blockOpener | block | blockCloser => .comment

/-- The scan is inside something that has to be closed. A line comment ends with the text. -/
def isOpen : Mode → Bool
  | plain | line => false
  | string | escaped | blockOpener | block | blockCloser => true

/-- What the scan stands in behind a character; `ahead` is the character that follows it. -/
def next : Mode → Char → (ahead : Option Char) → Mode
  | plain, c, ahead =>
    if c = '"' then string
    else if c = '/' ∧ ahead = some '/' then line
    else if c = '/' ∧ ahead = some '*' then blockOpener
    else plain
  | string, c, _ => if c = '"' then plain else if c = '\\' then escaped else string
  | escaped, _, _ => string
  | line, _, ahead => if ahead.all isLineEnd then plain else line
  | blockOpener, _, _ => block
  | block, c, ahead => if c = '*' ∧ ahead = some '/' then blockCloser else block
  | blockCloser, _, _ => plain

/-- The part that a character belongs to: the one that goes on, and in plain text the one that it
begins. -/
def partOf (m : Mode) (c : Char) (ahead : Option Char) : Part :=
  if m = plain then (m.next c ahead).part else m.part

/-- What the scan stands in behind a text. -/
def after : Mode → List Char → Mode
  | m, [] => m
  | m, c :: rest => (m.next c rest.head?).after rest

/-- The characters of a text with the parts that they belong to. -/
def marks : Mode → List Char → List (Char × Part)
  | _, [] => []
  | m, c :: rest => (c, m.partOf c rest.head?) :: (m.next c rest.head?).marks rest

/-- A scan marks the characters of the text. -/
theorem map_marks (m : Mode) (cs : List Char) : (m.marks cs).map Prod.fst = cs := by
  induction cs generalizing m with
  | nil => rfl
  | cons c rest ih => exact congrArg (c :: ·) (ih _)

theorem length_marks (m : Mode) (cs : List Char) : (m.marks cs).length = cs.length := by
  rw [← List.length_map Prod.fst, map_marks]

end Mode

/-! ## Wholes that the scanner reads -/

/-- From this mode on the first `n` characters all belong to one part, and behind them the scan
stands in plain text. -/
structure Reads (m : Mode) (part : Part) (cs : List Char) (n : Nat) : Prop where
  le_length : n ≤ cs.length
  marks_eq : m.marks cs = (cs.take n).map (·, part) ++ Mode.plain.marks (cs.drop n)
  after_eq : m.after cs = Mode.plain.after (cs.drop n)

/-- A scan that stands in plain text has read nothing of a part. -/
theorem Reads.zero (part : Part) (cs : List Char) : Reads .plain part cs 0 :=
  ⟨Nat.zero_le _, rfl, rfl⟩

/-- One more character of the part in front. -/
theorem Reads.cons {m : Mode} {part : Part} {c : Char} {rest : List Char} {n : Nat}
    (hpart : m.partOf c rest.head? = part) (h : Reads (m.next c rest.head?) part rest n) :
    Reads m part (c :: rest) (n + 1) where
  le_length := Nat.succ_le_succ h.le_length
  marks_eq := by simp [Mode.marks, hpart, h.marks_eq]
  after_eq := by rw [Mode.after, h.after_eq, List.drop_succ_cons]

theorem next_string {c : Char} {rest : List Char} (hquote : c = '"' → False)
    (hlast : c = '\\' → rest = [] → False)
    (hescape : ∀ d others, c = '\\' → rest = d :: others → False) :
    Mode.string.next c rest.head? = .string := by
  have hback : c ≠ '\\' := by
    cases rest with
    | nil => exact fun hc => hlast hc rfl
    | cons d others => exact fun hc => hescape d others hc rfl
  rw [Mode.next, if_neg hquote, if_neg hback]

theorem next_block {c : Char} {rest : List Char}
    (hend : ∀ others, c = '*' → rest = '/' :: others → False) :
    Mode.block.next c rest.head? = .block := by
  rw [Mode.next, if_neg]
  rintro ⟨hc, hahead⟩
  cases rest with
  | nil => cases hahead
  | cons d others =>
    cases hahead
    exact hend others hc rfl

/-- What is left of a string is read up to its closing quote. -/
theorem reads_stringRest {cs : List Char} {n : Nat} (h : stringRest? cs = some n) :
    Reads .string .string cs n := by
  fun_induction stringRest? cs generalizing n with
  | case1 | case3 => cases h
  | case2 rest =>
    cases h
    exact .cons rfl (.zero _ _)
  | case4 d rest ih =>
    obtain ⟨k, hk, rfl⟩ := Option.map_eq_some_iff.1 h
    exact .cons rfl (.cons rfl (ih hk))
  | case5 c rest hquote hlast hescape ih =>
    obtain ⟨k, hk, rfl⟩ := Option.map_eq_some_iff.1 h
    have hnext : Mode.string.next c rest.head? = .string := next_string hquote hlast hescape
    refine .cons rfl ?_
    rw [hnext]
    exact ih hk

/-- A string that is never closed leaves the scan inside it. -/
theorem isOpen_after_string {cs : List Char} (h : stringRest? cs = none) :
    (Mode.string.after cs).isOpen = true := by
  fun_induction stringRest? cs with
  | case1 | case3 => rfl
  | case2 rest => cases h
  | case4 d rest ih => exact ih (Option.map_eq_none_iff.1 h)
  | case5 c rest hquote hlast hescape ih =>
    have hnext : Mode.string.next c rest.head? = .string := next_string hquote hlast hescape
    rw [Mode.after, hnext]
    exact ih (Option.map_eq_none_iff.1 h)

/-- What is left of a block comment is read up to its end. -/
theorem reads_blockRest {cs : List Char} {n : Nat} (h : blockRest? cs = some n) :
    Reads .block .comment cs n := by
  fun_induction blockRest? cs generalizing n with
  | case1 => cases h
  | case2 rest =>
    cases h
    exact .cons rfl (.cons rfl (.zero _ _))
  | case3 c rest hend ih =>
    obtain ⟨k, hk, rfl⟩ := Option.map_eq_some_iff.1 h
    refine .cons rfl ?_
    rw [next_block hend]
    exact ih hk

/-- A block comment that is never closed leaves the scan inside it. -/
theorem isOpen_after_block {cs : List Char} (h : blockRest? cs = none) :
    (Mode.block.after cs).isOpen = true := by
  fun_induction blockRest? cs with
  | case1 => rfl
  | case2 rest => cases h
  | case3 c rest hend ih =>
    rw [Mode.after, next_block hend]
    exact ih (Option.map_eq_none_iff.1 h)

/-- A line comment is read up to the end of its line; its first character is not looked at. -/
theorem reads_line (c : Char) (cs : List Char) :
    Reads .line .comment (c :: cs) ((cs.takeWhile fun c => !isLineEnd c).length + 1) := by
  induction cs generalizing c with
  | nil => exact .cons rfl (.zero _ _)
  | cons d rest ih =>
    refine .cons rfl ?_
    cases hend : isLineEnd d with
    | true => simpa [Mode.next, hend] using Reads.zero .comment (d :: rest)
    | false => simpa [Mode.next, hend] using ih d

/-- A complete comment is read as such. -/
theorem reads_comment {cs : List Char} {n : Nat} (h : comment? cs = some n) :
    Reads .plain .comment cs n := by
  unfold comment? at h
  split at h
  · next rest =>
    cases h
    rw [Nat.add_comm]
    exact .cons rfl (reads_line '/' rest)
  · next rest =>
    obtain ⟨k, hk, rfl⟩ := Option.map_eq_some_iff.1 h
    exact .cons rfl (.cons rfl (reads_blockRest hk))
  · cases h

/-- A block comment that is opened and never closed leaves the scan inside it. -/
theorem isOpen_after_opener {cs : List Char} (h : comment? cs = none) (hopens : opensBlock cs) :
    (Mode.plain.after cs).isOpen = true := by
  unfold opensBlock at hopens
  split at hopens
  · exact isOpen_after_block (Option.map_eq_none_iff.1 h)
  · cases hopens

/-- A character that begins neither a string nor a comment is plain text. -/
theorem next_plain {c : Char} {rest : List Char} (hquote : c ≠ '"')
    (hcomment : comment? (c :: rest) = none) (hopens : ¬ opensBlock (c :: rest)) :
    Mode.plain.next c rest.head? = .plain := by
  have hline : ¬ (c = '/' ∧ rest.head? = some '/') := by
    rintro ⟨rfl, hahead⟩
    obtain ⟨others, rfl⟩ := List.head?_eq_some_iff.1 hahead
    cases hcomment
  have hblock : ¬ (c = '/' ∧ rest.head? = some '*') := by
    rintro ⟨rfl, hahead⟩
    obtain ⟨others, rfl⟩ := List.head?_eq_some_iff.1 hahead
    exact hopens rfl
  rw [Mode.next, if_neg hquote, if_neg hline, if_neg hblock]

end WirePlan.Source
