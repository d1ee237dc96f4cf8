import WirePlan.Proofs.Json.Grammar
import WirePlan.Proofs.Outcome

/-!
# How a token is read

Every token has one lexeme, which tells what it denotes and nothing about where it stands
(`Token.lexeme`). A text is split behind the token that it begins with, and the lexeme found is the
one of the token (`splitsOff_token`); only a number has to be followed by something that does not
carry it on (`EndsNumber`).

Strings are read by one induction on what they denote (`stringFrom_chars`), in which an escape of
half a character takes the next one with it; numbers are read part by part (`numberParts_chars`).
-/

namespace WirePlan.Json

/-! ## What a token denotes -/

/-- The number that four hexadecimal digits denote. -/
def codeUnit (digits : List Char) : Nat := (Text.natural? 16 digits).getD 0

/-- The character that two halves denote. -/
def ofHalves (leading trailing : Nat) : Char :=
  Char.ofNat (0x10000 + (leading - 0xD800) * 0x400 + (trailing - 0xDC00))

/-- The content of a string, unless it holds half a character. -/
def StringText.value? : StringText → Option (List Char)
  | [] => some []
  | .plain c _ _ _ :: s => (StringText.value? s).map (c :: ·)
  | .short c _ :: s => (StringText.value? s).map ((escaped? c).getD c :: ·)
  | .code digits _ _ :: s =>
    if isTrailingHalf (codeUnit digits) then none
    else if isLeadingHalf (codeUnit digits) then
      match s with
      | .code low _ _ :: s =>
        if isTrailingHalf (codeUnit low) then
          (StringText.value? s).map (ofHalves (codeUnit digits) (codeUnit low) :: ·)
        else none
      | _ => none
    else (StringText.value? s).map (Char.ofNat (codeUnit digits) :: ·)

/-- The parts of a number. -/
def NumberText.parts (n : NumberText) : NumberParts where
  negative := n.negative
  integer := n.integer.chars
  fraction := n.fraction?.map Digits.chars
  exponent := n.exponent?.map fun e => (e.minus?.getD false, e.digits.chars)

/-- The value of a word. -/
def Word.value : Word → Json
  | null => .null
  | true => .bool Bool.true
  | false => .bool Bool.false

/-- The lexeme of a token, without what follows it. -/
def Token.lexeme : Token → Lexeme
  | mark m => .mark m []
  | string s => .text [] (match s.value? with | some cs => .ok (.ofList cs) | none => .error [])
  | number n =>
    .scalar [] (match n.parts.value? with | some x => .ok (.number x) | none => .error [])
  | word w => .scalar [] (.ok w.value)

/-- A lexeme without what follows it. -/
def Lexeme.bare : Lexeme → Lexeme
  | .mark m _ => .mark m []
  | .text _ content => .text [] (content.mapError fun _ => [])
  | .scalar _ content => .scalar [] (content.mapError fun _ => [])
  | .stray _ => .stray []

/-- Nothing behind the lexeme is split. -/
def Lexeme.isLast : Lexeme → Bool
  | .text _ (.error _) | .scalar _ (.error _) | .stray _ => true
  | _ => false

/-! ## Strings -/

theorem length_le_byteCount (cs : List Char) : cs.length ≤ byteCount cs := by
  have hfold (start : Nat) : start + cs.length ≤ cs.foldl (fun n c => n + c.utf8Size) start := by
    induction cs generalizing start with
    | nil => exact Nat.le_refl _
    | cons c rest ih =>
      have hpos := c.utf8Size_pos
      have hrest := ih (start + c.utf8Size)
      rw [List.length_cons, List.foldl_cons]
      omega
  simpa [byteCount] using hfold 0

theorem exists_digitsValue? {base : Nat} {cs : List Char}
    (h : ∀ c ∈ cs, (Text.digitValue? base c).isSome) (start : Nat) :
    ∃ n, Text.digitsValue? base start cs = some n := by
  induction cs generalizing start with
  | nil => exact ⟨start, rfl⟩
  | cons c rest ih =>
    obtain ⟨d, hd⟩ := Option.isSome_iff_exists.1 (h c (.head _))
    obtain ⟨n, hn⟩ := ih (fun x hx => h x (.tail _ hx)) (start * base + d)
    exact ⟨n, by rw [Text.digitsValue?, hd]; exact hn⟩

/-- Four hexadecimal digits are read whatever follows them. -/
theorem hexQuad_append {digits : List Char} (hlength : digits.length = 4)
    (hdigits : ∀ d ∈ digits, (Text.digitValue? 16 d).isSome) (rest : List Char) :
    hexQuad (digits ++ rest) = .ok (codeUnit digits) := by
  have htake : (digits ++ rest).take 4 = digits := by rw [← hlength, List.take_left]
  have hbytes : ¬ byteCount digits < 4 := by
    have := length_le_byteCount digits
    omega
  obtain ⟨n, hn⟩ : ∃ n, Text.natural? 16 digits = some n := by
    cases digits with
    | nil => cases hlength
    | cons d digits => exact exists_digitsValue? hdigits 0
  rw [hexQuad, htake, if_neg hbytes, codeUnit, hn, Option.getD_some]

section
variable {digits : List Char} (hlength : digits.length = 4)
  (hdigits : ∀ d ∈ digits, (Text.digitValue? 16 d).isSome) (rest : List Char)
include hlength hdigits

/-- A character of its own is read whatever follows it. -/
theorem escape_whole (htrailing : ¬ isTrailingHalf (codeUnit digits))
    (hleading : ¬ isLeadingHalf (codeUnit digits)) :
    escape ('u' :: (digits ++ rest)) = .ok (Char.ofNat (codeUnit digits), 5) := by
  simp only [escape, hexQuad_append hlength hdigits, bind, Except.bind]
  rw [if_neg htrailing, if_neg hleading]

/-- The trailing half of a character does not come first. -/
theorem escape_trailing (htrailing : isTrailingHalf (codeUnit digits)) :
    (escape ('u' :: (digits ++ rest))).toOption = none := by
  simp only [escape, hexQuad_append hlength hdigits, bind, Except.bind]
  rw [if_pos htrailing]
  rfl

/-- The leading half of a character is read together with the trailing half. -/
theorem escape_pair {low : List Char} (hlow : low.length = 4)
    (hlows : ∀ d ∈ low, (Text.digitValue? 16 d).isSome)
    (htrailing : ¬ isTrailingHalf (codeUnit digits)) (hleading : isLeadingHalf (codeUnit digits)) :
    (escape ('u' :: (digits ++ '\\' :: 'u' :: (low ++ rest)))).toOption =
      if isTrailingHalf (codeUnit low) then some (ofHalves (codeUnit digits) (codeUnit low), 11)
      else none := by
  have hdrop : (digits ++ '\\' :: 'u' :: (low ++ rest)).drop 4 = '\\' :: 'u' :: (low ++ rest) := by
    rw [← hlength, List.drop_left]
  simp only [escape, hexQuad_append hlength hdigits, hexQuad_append hlow hlows, hdrop, bind,
    Except.bind]
  rw [if_neg htrailing, if_pos hleading]
  split <;> rfl

/-- The leading half of a character does not stand alone. -/
theorem escape_leading (htrailing : ¬ isTrailingHalf (codeUnit digits))
    (hleading : isLeadingHalf (codeUnit digits)) (hrest : ∀ low, rest ≠ '\\' :: 'u' :: low) :
    (escape ('u' :: (digits ++ rest))).toOption = none := by
  have hdrop : (digits ++ rest).drop 4 = rest := by rw [← hlength, List.drop_left]
  simp only [escape, hexQuad_append hlength hdigits, hdrop, bind, Except.bind]
  rw [if_neg htrailing, if_pos hleading]
  split
  · exact absurd rfl (hrest _)
  · rfl
  · rfl
  · rfl

end

/-- A letter behind a backslash is read by itself. -/
theorem escape_short {c : Char} (h : c ∈ ['"', '\\', '/', 'b', 'f', 'n', 'r', 't'])
    (rest : List Char) : escape (c :: rest) = .ok ((escaped? c).getD c, 1) := by
  simp only [List.mem_cons, List.not_mem_nil, or_false] at h
  rcases h with rfl | rfl | rfl | rfl | rfl | rfl | rfl | rfl <;> rfl

/-- Characters that are read already are counted. -/
theorem stringFrom_skip (done : List Char) (count : Nat) (skipped rest : List Char) :
    stringFrom skipped.length done count (skipped ++ rest) =
      stringFrom 0 done (count + skipped.length) rest := by
  induction skipped generalizing count with
  | nil => rfl
  | cons c skipped ih =>
    rw [List.length_cons, List.cons_append, stringFrom, ih, Nat.add_right_comm, Nat.add_assoc]

/-- What stands in a string from a place on is read up to the closing quote. -/
def StringReads (done : List Char) (count : Nat) (inner : List Char)
    (content? : Option (List Char)) : Prop :=
  ∀ rest, (stringFrom 0 done count (inner ++ '"' :: rest)).toOption =
    content?.map fun cs => (.ofList (done.reverse ++ cs), count + (inner.length + 1))

namespace StringReads
variable {done inner : List Char} {count : Nat} {content? : Option (List Char)}

theorem nil : StringReads done count [] (some []) := by
  intro rest
  simp [stringFrom, Except.toOption]

theorem plain {c : Char} (hquote : c ≠ '"') (hback : c ≠ '\\') (hcontrol : 0x20 ≤ c.toNat)
    (h : StringReads (c :: done) (count + 1) inner content?) :
    StringReads done count (c :: inner) (content?.map (c :: ·)) := by
  intro rest
  rw [List.cons_append, stringFrom, if_neg hquote, if_neg hback, if_neg (Nat.not_lt.2 hcontrol),
    h rest, Option.map_map]
  simp [Function.comp_def, Nat.add_assoc, Nat.add_comm 1]

/-- The characters of an escape are read before the others. -/
theorem escape (escaped : List Char) {d : Char}
    (hescape : ∀ rest, Json.escape (escaped ++ rest) = .ok (d, escaped.length))
    (h : StringReads (d :: done) (count + 1 + escaped.length) inner content?) :
    StringReads done count ('\\' :: (escaped ++ inner)) (content?.map (d :: ·)) := by
  intro rest
  rw [List.cons_append, List.append_assoc, stringFrom, if_neg (by decide), if_pos rfl, hescape]
  dsimp only
  rw [stringFrom_skip, h rest, Option.map_map]
  simp [Function.comp_def, Nat.add_assoc, Nat.add_comm 1]

/-- A string is malformed at its first escape that is. -/
theorem malformed (hescape : ∀ rest, (Json.escape (inner ++ '"' :: rest)).toOption = none) :
    StringReads done count ('\\' :: inner) none := by
  intro rest
  have hnone := hescape rest
  rw [List.cons_append, stringFrom, if_neg (by decide), if_pos rfl]
  cases hresult : Json.escape (inner ++ '"' :: rest) with
  | error e => rfl
  | ok p =>
    rw [hresult] at hnone
    cases hnone

end StringReads

/-- Half a character is not carried on by a unit that is no escape of four digits. -/
theorem ne_code {s : StringText} (h : ∀ low hlow hlows others, s ≠ .code low hlow hlows :: others)
    (rest low : List Char) :
    s.flatMap StringUnit.chars ++ '"' :: rest ≠ '\\' :: 'u' :: low := by
  intro heq
  cases s with
  | nil => cases heq
  | cons unit s =>
    cases unit with
    | plain c hquote hback hcontrol =>
      injection heq with hc
      exact hback hc
    | short c hletter =>
      injection heq with _ heq
      injection heq with hc
      subst hc
      exact absurd hletter (by decide)
    | code digits hlength hdigits => exact h _ _ _ _ rfl

/-- A string is read up to its closing quote, and its content is what it denotes. -/
theorem stringFrom_chars (s : StringText) (done : List Char) (count : Nat) :
    StringReads done count (s.flatMap StringUnit.chars) s.value? := by
  fun_induction StringText.value? s generalizing done count with
  | case1 => exact .nil
  | case2 c hquote hback hcontrol s ih => exact .plain hquote hback hcontrol (ih _ _)
  | case3 c hletter s ih => exact .escape [c] (escape_short hletter) (ih _ _)
  | case4 digits hlength hdigits s htrailing =>
    exact .malformed fun rest => by simpa using escape_trailing hlength hdigits _ htrailing
  | case5 digits hlength hdigits htrailing hleading low hlow hlows s hpair ih =>
    rw [List.flatMap_cons, List.flatMap_cons, ← List.append_assoc]
    refine .escape ('u' :: (digits ++ '\\' :: 'u' :: low)) (fun rest => ?_) (ih _ _)
    have hescape := escape_pair hlength hdigits rest hlow hlows htrailing hleading
    rw [if_pos hpair] at hescape
    simpa [hlength, hlow] using toOption_eq_some.1 hescape
  | case6 digits hlength hdigits htrailing hleading low hlow hlows s hpair =>
    rw [List.flatMap_cons, List.flatMap_cons]
    refine .malformed fun rest => ?_
    have hescape := escape_pair hlength hdigits (s.flatMap StringUnit.chars ++ '"' :: rest) hlow
      hlows htrailing hleading
    rw [if_neg hpair] at hescape
    simpa [StringUnit.chars] using hescape
  | case7 digits hlength hdigits s htrailing hleading hother =>
    rw [List.flatMap_cons]
    refine .malformed fun rest => ?_
    have hescape := escape_leading hlength hdigits (s.flatMap StringUnit.chars ++ '"' :: rest)
      htrailing hleading (ne_code (fun low hlow hlows others => hother low hlow hlows others) rest)
    simpa using hescape
  | case8 digits hlength hdigits s htrailing hleading ih =>
    refine .escape ('u' :: digits) (fun rest => ?_) (ih _ _)
    have hescape := escape_whole hlength hdigits rest htrailing hleading
    simpa [hlength] using hescape

/-! ## Numbers -/

/-- No digit follows. -/
def EndsDigits (cs : List Char) : Prop := ∀ c ∈ cs.head?, c.isDigit = false

/-- Nothing follows that carries a number on. -/
def EndsNumber (cs : List Char) : Prop :=
  ∀ c ∈ cs.head?, c.isDigit = false ∧ c ≠ '.' ∧ c ≠ 'e' ∧ c ≠ 'E'

theorem EndsNumber.endsDigits {cs : List Char} (h : EndsNumber cs) : EndsDigits cs :=
  fun c hc => (h c hc).1

/-- Digits begin with a digit. -/
theorem Digits.append_ne (d : Digits) {c : Char} (hc : c.isDigit = false)
    (rest others : List Char) : d.chars ++ rest ≠ c :: others := by
  obtain ⟨first, more, hd⟩ := List.exists_cons_of_ne_nil d.ne_nil
  intro heq
  rw [hd] at heq
  cases heq
  rw [d.isDigit c (hd ▸ .head _)] at hc
  cases hc

/-- Digits are read up to what is none. -/
theorem someDigits_chars (d : Digits) {rest : List Char} (hrest : EndsDigits rest) :
    someDigits (d.chars ++ rest) = .ok d.chars := by
  have hnone : rest.takeWhile Char.isDigit = [] := by
    cases rest with
    | nil => rfl
    | cons c rest => exact List.takeWhile_cons_of_neg (by simp [hrest c rfl])
  have htake : (d.chars ++ rest).takeWhile Char.isDigit = d.chars := by
    rw [List.takeWhile_append_of_pos d.isDigit, hnone, List.append_nil]
  rw [someDigits, htake]
  split
  · next heq => exact absurd heq d.ne_nil
  · rfl

theorem exponentPart_none {rest : List Char} (hrest : EndsNumber rest) :
    exponentPart rest = .ok (none, 0) := by
  cases rest with
  | nil => rfl
  | cons c rest =>
    obtain ⟨-, -, hlower, hupper⟩ := hrest c rfl
    unfold exponentPart
    exact if_neg (not_or.2 ⟨hlower, hupper⟩)

/-- An exponent is read with its letter and its sign. -/
theorem exponentPart_chars (e : ExponentText) {rest : List Char} (hrest : EndsDigits rest) :
    exponentPart (e.chars ++ rest) =
      .ok (some (e.minus?.getD false, e.digits.chars), e.chars.length) := by
  obtain ⟨letter, hletter, minus?, digits⟩ := e
  have hdigits := someDigits_chars digits hrest
  unfold exponentPart
  cases minus? with
  | some minus =>
    cases minus <;>
    · simp only [ExponentText.chars, signChars, List.cons_append, List.nil_append, if_pos hletter,
        hdigits, bind, Except.bind, List.length_cons, Nat.add_comm _ 2]
      rfl
  | none =>
    simp only [ExponentText.chars, signChars, List.cons_append, List.nil_append, if_pos hletter,
      List.length_cons, Nat.add_comm _ 1]
    split
    · next heq => exact absurd heq (digits.append_ne (by decide) _ _)
    · next heq => exact absurd heq (digits.append_ne (by decide) _ _)
    · rw [hdigits]
      rfl

/-- A fraction is read with its point. -/
theorem fractionPart_chars (d : Digits) {rest : List Char} (hrest : EndsDigits rest) :
    fractionPart ('.' :: (d.chars ++ rest)) = .ok (some d.chars, 1 + d.chars.length) := by
  rw [fractionPart, someDigits_chars d hrest]
  rfl

/-- The exponent of a number, if it is written, is read up to what follows the number. -/
theorem exponentPart_written (exponent? : Option ExponentText) {rest : List Char}
    (hrest : EndsNumber rest) :
    exponentPart (exponent?.elim [] ExponentText.chars ++ rest) =
      .ok (exponent?.map fun e => (e.minus?.getD false, e.digits.chars),
        (exponent?.elim [] ExponentText.chars).length) := by
  cases exponent? with
  | none => exact exponentPart_none hrest
  | some e => exact exponentPart_chars e hrest.endsDigits

/-- What follows a fraction does not carry it on. -/
theorem head_exponent (exponent? : Option ExponentText) {rest : List Char}
    (hrest : EndsNumber rest) :
    ∀ c ∈ (exponent?.elim [] ExponentText.chars ++ rest).head?, c.isDigit = false ∧ c ≠ '.' := by
  cases exponent? with
  | none => exact fun c hc => ⟨(hrest c hc).1, (hrest c hc).2.1⟩
  | some e =>
    intro c hc
    cases hc
    rcases e.isLetter with h | h <;> exact h ▸ by decide

/-- The fraction of a number, if it is written, is read up to the exponent. -/
theorem fractionPart_written (fraction? : Option Digits) {rest : List Char}
    (hrest : ∀ c ∈ rest.head?, c.isDigit = false ∧ c ≠ '.') :
    fractionPart ((fraction?.elim [] fun d => '.' :: d.chars) ++ rest) =
      .ok (fraction?.map Digits.chars, (fraction?.elim [] fun d => '.' :: d.chars).length) := by
  cases fraction? with
  | none =>
    unfold fractionPart
    split
    · next heq =>
      rw [Option.elim_none, List.nil_append] at heq
      exact absurd rfl (hrest '.' (by rw [heq]; rfl)).2
    · rfl
  | some d =>
    have hpart := fractionPart_chars d fun c hc => (hrest c hc).1
    simpa [Nat.add_comm] using hpart

/-- What follows the integer of a number does not carry it on. -/
theorem head_fraction (fraction? : Option Digits) {rest : List Char}
    (hrest : ∀ c ∈ rest.head?, c.isDigit = false ∧ c ≠ '.') :
    EndsDigits ((fraction?.elim [] fun d => '.' :: d.chars) ++ rest) := by
  cases fraction? with
  | none => exact fun c hc => (hrest c hc).1
  | some d =>
    intro c hc
    cases hc
    rfl

/-- The parts of a number, read behind its sign. -/
def unsignedParts (negative : Bool) (sign : Nat) (cs : List Char) :
    Except Rest (NumberParts × Nat) := do
  let integer ← someDigits cs
  match integer with
  | '0' :: _ :: _ => .error (cs.drop 2)
  | _ =>
    let cs := cs.drop integer.length
    let (fraction, fractionLength) ← fractionPart cs
    let (exponent, exponentLength) ← exponentPart (cs.drop fractionLength)
    return (⟨negative, integer, fraction, exponent⟩,
      sign + integer.length + fractionLength + exponentLength)

theorem numberParts_minus (cs : List Char) :
    numberParts ('-' :: cs) = unsignedParts true 1 cs := rfl

theorem numberParts_digits (d : Digits) (rest : List Char) :
    numberParts (d.chars ++ rest) = unsignedParts false 0 (d.chars ++ rest) := by
  unfold numberParts
  split
  · next heq =>
    split at heq
    · next hminus => exact absurd hminus (d.append_ne (by decide) _ _)
    · cases heq
      rfl

/-- A number is read part by part. -/
theorem numberParts_chars (n : NumberText) {rest : List Char} (hrest : EndsNumber rest) :
    numberParts (n.chars ++ rest) = .ok (n.parts, n.chars.length) := by
  obtain ⟨negative, integer, hleading, fraction?, exponent?⟩ := n
  have hexponent := exponentPart_written exponent? hrest
  have hfraction := fractionPart_written fraction? (head_exponent exponent? hrest)
  have hinteger := someDigits_chars integer
    (head_fraction fraction? (head_exponent exponent? hrest))
  have hunsigned (sign : Nat) : unsignedParts negative sign (integer.chars ++
      ((fraction?.elim [] fun d => '.' :: d.chars) ++
        (exponent?.elim [] ExponentText.chars ++ rest))) =
      .ok (NumberText.parts ⟨negative, integer, hleading, fraction?, exponent?⟩,
        sign + integer.chars.length + (fraction?.elim [] fun d => '.' :: d.chars).length +
          (exponent?.elim [] ExponentText.chars).length) := by
    simp only [unsignedParts, hinteger, bind, Except.bind, List.drop_left, hfraction, hexponent]
    split
    · next heq =>
      cases hleading _ heq
    · rfl
  cases negative with
  | true =>
    have hparts := (numberParts_minus _).trans (hunsigned 1)
    simpa [NumberText.chars, Nat.add_comm, Nat.add_left_comm, Nat.add_assoc] using hparts
  | false =>
    have hparts := (numberParts_digits integer _).trans (hunsigned 0)
    simpa [NumberText.chars, Nat.add_assoc] using hparts

/-- A number is read up to what follows it. -/
theorem numberAt_chars (n : NumberText) {rest : List Char} (hrest : EndsNumber rest) :
    (numberAt (n.chars ++ rest)).toOption = n.parts.value?.map (·, n.chars.length) := by
  rw [numberAt, numberParts_chars n hrest]
  cases hvalue : n.parts.value? <;>
    simp [bind, Except.bind, hvalue, pure, Except.pure, Except.toOption]

/-! ## Any token -/

/-- Characters that are read already leave no lexeme. -/
theorem lexFrom_skip (skipped rest : List Char) :
    lexFrom skipped.length (skipped ++ rest) = lexFrom 0 rest := by
  induction skipped with
  | nil => rfl
  | cons c skipped ih => exact ih

/-- Nothing but the four blanks is one. -/
theorem isSpace_iff {c : Char} : isSpace c = true ↔ c ∈ [' ', '\t', '\n', '\r'] := by
  simp [isSpace, or_assoc]

/-- A sign and a digit start nothing else. -/
theorem notMem_of_startsNumber {c : Char} (hc : (c = '-' || c.isDigit) = true) {others : List Char}
    (h : ∀ d ∈ others, (d = '-' || d.isDigit) = false) : c ∉ others :=
  fun hmem => Bool.false_ne_true ((h c hmem).symm.trans hc)

/-- A sign or a digit starts a number. -/
theorem lexFrom_number {c : Char} (hc : (c = '-' || c.isDigit) = true) (rest : List Char) :
    lexFrom 0 (c :: rest) =
      match numberAt (c :: rest) with
      | .ok (v, n) => .scalar rest (.ok (.number v)) :: lexFrom (n - 1) rest
      | .error e => [.scalar rest (.error e)] := by
  have hspace : ¬ isSpace c = true :=
    fun h => notMem_of_startsNumber hc (by simp) (isSpace_iff.1 h)
  have hquote : ¬ c = '"' :=
    fun h => notMem_of_startsNumber hc (by simp) (List.mem_singleton.2 h)
  have hmark : Mark.ofChar? c = none := by
    unfold Mark.ofChar?
    split <;> first | rfl | cases hc
  rw [lexFrom, if_neg hspace, hmark]
  exact (if_neg hquote).trans (if_pos hc)

/-- A number starts with a sign or a digit. -/
theorem NumberText.exists_chars_eq (n : NumberText) :
    ∃ c tail, n.chars = c :: tail ∧ (c = '-' || c.isDigit) = true := by
  obtain ⟨d, ds, hd⟩ := List.exists_cons_of_ne_nil n.integer.ne_nil
  cases hsign : n.negative with
  | true => exact ⟨_, _, by rw [chars, hsign]; rfl, rfl⟩
  | false =>
    refine ⟨d, _, by rw [chars, hsign, hd]; rfl, ?_⟩
    rw [n.integer.isDigit d (hd ▸ .head _), Bool.or_true]

/-- What a text is split into, where nothing is known but the lexemes. -/
def bareLexemes (cs : List Char) : List Lexeme := (lexFrom 0 cs).map Lexeme.bare

/-- The lexeme of the token comes first, and the text behind it is split unless the token is
malformed. -/
def SplitsOff (t : Token) (rest : List Char) : Prop :=
  bareLexemes (t.chars ++ rest) = t.lexeme :: if t.lexeme.isLast then [] else bareLexemes rest

theorem lexFrom_quote_error {cs : List Char} {e : Rest} (h : stringFrom 0 [] 0 cs = .error e) :
    lexFrom 0 ('"' :: cs) = [.text cs (.error e)] := by
  simp [lexFrom, isSpace, Mark.ofChar?, h]

theorem lexFrom_quote {cs : List Char} {s : String} {n : Nat}
    (h : stringFrom 0 [] 0 cs = .ok (s, n)) :
    lexFrom 0 ('"' :: cs) = .text cs (.ok s) :: lexFrom n cs := by
  simp [lexFrom, isSpace, Mark.ofChar?, h]

theorem splitsOff_string (s : StringText) (rest : List Char) : SplitsOff (.string s) rest := by
  have hread := stringFrom_chars s [] 0 rest
  rw [SplitsOff, Token.chars, List.cons_append, List.append_assoc, List.singleton_append,
    bareLexemes]
  cases hfrom : stringFrom 0 [] 0 (s.flatMap StringUnit.chars ++ '"' :: rest) with
  | error e =>
    rw [hfrom] at hread
    rw [lexFrom_quote_error hfrom, Token.lexeme, Option.map_eq_none_iff.1 hread.symm]
    rfl
  | ok p =>
    rw [hfrom] at hread
    obtain ⟨content, hvalue, rfl⟩ := Option.map_eq_some_iff.1 hread.symm
    have hskip := lexFrom_skip (s.flatMap StringUnit.chars ++ ['"']) rest
    rw [List.length_append, List.append_assoc] at hskip
    rw [lexFrom_quote hfrom, Nat.zero_add, Token.lexeme, hvalue]
    exact congrArg (_ :: ·) (congrArg (List.map Lexeme.bare) hskip)

theorem splitsOff_number (n : NumberText) {rest : List Char} (hrest : EndsNumber rest) :
    SplitsOff (.number n) rest := by
  have hread := numberAt_chars n hrest
  obtain ⟨c, tail, hn, hc⟩ := n.exists_chars_eq
  rw [hn, List.cons_append] at hread
  rw [SplitsOff, Token.chars, hn, List.cons_append, bareLexemes, lexFrom_number hc]
  cases hat : numberAt (c :: (tail ++ rest)) with
  | error e =>
    rw [hat] at hread
    rw [Token.lexeme, Option.map_eq_none_iff.1 hread.symm]
    rfl
  | ok p =>
    rw [hat] at hread
    obtain ⟨content, hvalue, rfl⟩ := Option.map_eq_some_iff.1 hread.symm
    dsimp only
    rw [Token.lexeme, hvalue]
    exact congrArg (_ :: ·) (congrArg (List.map Lexeme.bare) (lexFrom_skip tail rest))

/-- A token is split off wherever it stands. -/
theorem splitsOff_token (t : Token) {rest : List Char}
    (hrest : t.isMark = false → EndsNumber rest) : SplitsOff t rest := by
  cases t with
  | mark m => cases m <;> rfl
  | word w => cases w <;> rfl
  | string s => exact splitsOff_string s rest
  | number n => exact splitsOff_number n (hrest rfl)

end WirePlan.Json
