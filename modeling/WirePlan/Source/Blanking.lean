/-!
# Comments and trailing commas

A schema source is JSON with comments (to the end of the line, or in blocks) and with commas that
may stand before a closing bracket. Both are blanked before the JSON is read: every character of
them but a line feed becomes a space, so that lines and columns stay where they are. A source that
ends inside a string or a block comment cannot be blanked.

The scan goes from left to right. Where a string, a comment or a trailing comma starts, its length
is taken, and that many characters are kept or blanked; every other character is kept.
-/

namespace WirePlan.Source

/-- A place in a text, both counted from one; lines end at line feeds, columns count characters. -/
structure Position where
  line : Nat
  column : Nat
  deriving DecidableEq, Repr

/-- The line of the character that follows a text. -/
def lineAfter (consumed : List Char) : Nat := 1 + consumed.count '\n'

/-- The place of the character that follows a text. -/
def Position.after (consumed : List Char) : Position :=
  ⟨lineAfter consumed, 1 + (consumed.reverse.takeWhile (· != '\n')).length⟩

/-- The characters that end a line comment. -/
def isLineEnd (c : Char) : Bool := c == '\n' || c == '\r'

/-- The blanks that may stand between a trailing comma and its bracket. -/
def isSpace (c : Char) : Bool := c == ' ' || c == '\t' || c == '\r' || c == '\n'

/-- The length of what is left of a block comment, its end included. -/
def blockRest? : List Char → Option Nat
  | [] => none
  | '*' :: '/' :: _ => some 2
  | _ :: rest => (blockRest? rest).map (· + 1)

/-- The length of the complete comment at the head of a text. -/
def comment? : List Char → Option Nat
  | '/' :: '/' :: rest => some (2 + (rest.takeWhile fun c => !isLineEnd c).length)
  | '/' :: '*' :: rest => (blockRest? rest).map (· + 2)
  | _ => none

/-- The length of what is left of a string, its closing quote included. -/
def stringRest? : List Char → Option Nat
  | [] => none
  | '"' :: _ => some 1
  | ['\\'] => none
  | '\\' :: _ :: rest => (stringRest? rest).map (· + 2)
  | _ :: rest => (stringRest? rest).map (· + 1)

/-- The length of the blanks and complete comments before a closing bracket, when nothing else comes
before it; `skip` characters belong to a comment that is counted already. -/
def gapBeforeBracket? : (skip : Nat) → List Char → Option Nat
  | _, [] => none
  | n + 1, _ :: rest => gapBeforeBracket? n rest
  | 0, c :: rest =>
    if c = ']' ∨ c = '\x7d' then some 0
    else if isSpace c then (gapBeforeBracket? 0 rest).map (· + 1)
    else match comment? (c :: rest) with
      | some n => (gapBeforeBracket? (n - 1) rest).map (· + n)
      | none => none

/-- The text opens a block comment. -/
def opensBlock : List Char → Bool
  | '/' :: '*' :: _ => true
  | _ => false

/-- A character of a comment or a trailing comma, blanked. -/
def blankOf (c : Char) : Char := if c = '\n' then '\n' else ' '

/-- The text blanked from here on. The first `left` characters belong to a part that is scanned
already, which is kept or blanked as `keep` says. `.error` holds the text from the quote or comment
opener on that is never closed. -/
def blankFrom (keep : Bool) : (left : Nat) → List Char → Except (List Char) (List Char)
  | _, [] => .ok []
  | n + 1, c :: rest =>
    match blankFrom keep n rest with
    | .ok out => .ok ((if keep then c else blankOf c) :: out)
    | .error e => .error e
  | 0, c :: rest =>
    if c = '"' then
      match stringRest? rest with
      | some n => cons c (blankFrom true n rest)
      | none => .error (c :: rest)
    else match comment? (c :: rest) with
    | some n => cons (blankOf c) (blankFrom false (n - 1) rest)
    | none =>
      if opensBlock (c :: rest) then .error (c :: rest)
      else if c = ',' then
        match gapBeforeBracket? 0 rest with
        | some n => cons ' ' (blankFrom false n rest)
        | none => cons c (blankFrom true 0 rest)
      else cons c (blankFrom true 0 rest)
where
  /-- One more character before a text that could be blanked. -/
  cons (c : Char) : Except (List Char) (List Char) → Except (List Char) (List Char)
    | .ok out => .ok (c :: out)
    | .error e => .error e

/-- Characters with comments and trailing commas blanked, or the place of the quote or comment
opener that is never closed. -/
def blankChars (cs : List Char) : Except Position (List Char) :=
  match blankFrom true 0 cs with
  | .ok out => .ok out
  | .error rest => .error (.after (cs.take (cs.length - rest.length)))

/-- The source with comments and trailing commas blanked. -/
def blank (source : String) : Except Position String :=
  match blankChars source.toList with
  | .ok out => .ok (.ofList out)
  | .error position => .error position

end WirePlan.Source
