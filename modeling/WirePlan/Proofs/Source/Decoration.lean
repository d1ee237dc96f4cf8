import WirePlan.Proofs.Json.Reading
import WirePlan.Proofs.Source.Blanking
import WirePlan.Schema.Reading

/-!
# Comments and trailing commas leave no trace

A JSON text is decorated when comments stand among the blanks between its tokens, and a comma among
those before a closing bracket (`Decorated`). Blanking leaves a JSON text as it is and makes of a
decorated one a JSON text for the same value, which is read alike and makes the same declarations
(`blank_decorated`).

Blanking goes through a text part by part (`BlanksTo`): tokens stay (`blanksTo_token`), what stands
between them becomes blanks (`Gap.passes`, `Before.exists_blanksTo`). A comma needs a look at what
follows it: a gap is looked through, and the token behind it closes something or it does not
(`gapBeforeBracket?_token`).
-/

namespace WirePlan.Source

open Json (Tree Token Laid Spaced Denotes Blanks StringText StringUnit)

/-! ## Decorated texts -/

/-- Blanks and complete comments. -/
inductive Gap : List Char → Prop
  | nil : Gap []
  | blank {c : Char} (hblank : Json.isSpace c = true) {gap : List Char} (h : Gap gap) :
    Gap (c :: gap)
  /-- A comment to the end of its line. -/
  | line (body : List Char) (hbody : ∀ c ∈ body, isLineEnd c = false) (last : Char)
      (hlast : isLineEnd last = true) (gap : List Char) (h : Gap gap) :
    Gap (('/' :: '/' :: body) ++ last :: gap)
  /-- A comment in a block. -/
  | block (body : List Char) (hbody : ¬ ['*', '/'] <:+: body) (gap : List Char) (h : Gap gap) :
    Gap (('/' :: '*' :: (body ++ ['*', '/'])) ++ gap)

/-- What may stand before a token: a gap, with a comma in it if the token closes something. -/
inductive Before (t : Token) : List Char → Prop
  | gap {gap : List Char} (h : Gap gap) : Before t gap
  | comma (hclose : t.isClose = true) {before after : List Char} (hbefore : Gap before)
      (hafter : Gap after) : Before t (before ++ ',' :: after)

/-- The text is a decorated JSON text for a value. -/
def Decorated (text : List Char) (v : Tree) : Prop := Laid Before Gap v.tokens text

theorem gap_of_blanks {gap : List Char} (h : Blanks gap) : Gap gap := by
  induction gap with
  | nil => exact .nil
  | cons c gap ih => exact .blank (h c (.head _)) (ih fun d hd => h d (.tail _ hd))

/-- What is not decorated at all is decorated. -/
theorem laid_of_spaced {ts : List Token} {cs : List Char} (h : Spaced ts cs) :
    Laid Before Gap ts cs :=
  h.mono (fun _ _ hgap => .gap (gap_of_blanks hgap)) fun _ hgap => gap_of_blanks hgap

/-! ## Part by part -/

/-- The head of a text is blanked by itself. -/
def BlanksTo (part part' rest : List Char) : Prop :=
  (blankFrom true 0 (part ++ rest)).toOption = (blankFrom true 0 rest).toOption.map (part' ++ ·)

/-- A whole is kept or blanked. -/
theorem BlanksTo.whole (keep : Bool) {part rest : List Char}
    (h : blankFrom true 0 (part ++ rest) = blankFrom keep part.length (part ++ rest)) :
    BlanksTo part (treat keep part) rest := by
  have hle : part.length ≤ (part ++ rest).length := by simp
  rw [BlanksTo, h, toOption_blankFrom_left keep hle, List.drop_left, List.take_left]

theorem BlanksTo.nil (rest : List Char) : BlanksTo [] [] rest := by simp [BlanksTo]

theorem BlanksTo.append {p p' q q' rest : List Char} (hp : BlanksTo p p' (q ++ rest))
    (hq : BlanksTo q q' rest) : BlanksTo (p ++ q) (p' ++ q') rest := by
  rw [BlanksTo, List.append_assoc, hp, hq, Option.map_map]
  simp [Function.comp_def]

theorem comment?_of_ne {c : Char} (hslash : c ≠ '/') (rest : List Char) :
    comment? (c :: rest) = none := by
  simp [comment?, hslash]

/-- A character that starts nothing stays. -/
theorem BlanksTo.kept {c : Char} (hquote : c ≠ '"') (hslash : c ≠ '/') {rest : List Char}
    (hcomma : c = ',' → gapBeforeBracket? 0 rest = none) : BlanksTo [c] [c] rest := by
  refine .whole true ?_
  have hopens : ¬ opensBlock (c :: rest) := by simp [opensBlock, hslash]
  rw [List.singleton_append, List.length_singleton, blankFrom_cons, blankFrom, if_neg hquote,
    comment?_of_ne hslash]
  dsimp only
  rw [if_neg hopens]
  split
  · next h =>
    rw [hcomma h]
    rfl
  · rfl

theorem BlanksTo.kept_all {cs : List Char} (h : ∀ c ∈ cs, c ≠ '"' ∧ c ≠ '/' ∧ c ≠ ',')
    (rest : List Char) : BlanksTo cs cs rest := by
  induction cs with
  | nil => exact .nil rest
  | cons c cs ih =>
    obtain ⟨hquote, hslash, hcomma⟩ := h c (.head _)
    exact .append (.kept hquote hslash fun heq => absurd heq hcomma)
      (ih fun d hd => h d (.tail _ hd))

/-! ## What stands between tokens -/

/-- A part of a gap becomes blanks, and a comma in front looks through it. -/
structure Passes (part rest : List Char) : Prop where
  exists_blanksTo : ∃ part', Blanks part' ∧ BlanksTo part part' rest
  gapBeforeBracket?_eq :
    gapBeforeBracket? 0 (part ++ rest) = (gapBeforeBracket? 0 rest).map (· + part.length)

theorem Passes.nil (rest : List Char) : Passes [] rest where
  exists_blanksTo := ⟨[], .nil, .nil rest⟩
  gapBeforeBracket?_eq := by simp

theorem Passes.append {p q rest : List Char} (hp : Passes p (q ++ rest)) (hq : Passes q rest) :
    Passes (p ++ q) rest where
  exists_blanksTo := by
    obtain ⟨p', hp', hblanksTo⟩ := hp.exists_blanksTo
    obtain ⟨q', hq', hrest⟩ := hq.exists_blanksTo
    exact ⟨p' ++ q', hp'.append hq', hblanksTo.append hrest⟩
  gapBeforeBracket?_eq := by
    rw [List.append_assoc, hp.gapBeforeBracket?_eq, hq.gapBeforeBracket?_eq, Option.map_map,
      List.length_append]
    exact Option.map_congr fun n _ => by simp [Nat.add_assoc, Nat.add_comm p.length]

/-- Whatever is blanked becomes blanks. -/
theorem blanks_blankOf (cs : List Char) : Blanks (cs.map blankOf) := by
  intro c hc
  obtain ⟨d, -, rfl⟩ := List.mem_map.1 hc
  unfold blankOf
  split <;> rfl

/-- The blanks of JSON are those that may stand behind a trailing comma. -/
theorem isSpace_eq (c : Char) : isSpace c = Json.isSpace c := by
  rw [isSpace, Json.isSpace, Bool.or_assoc _ (c == '\r'), Bool.or_comm (c == '\r'), ← Bool.or_assoc]

/-- No blank is a bracket, or anything that blanking looks for. -/
theorem ne_of_isSpace {c : Char} (h : Json.isSpace c = true) :
    c ≠ '"' ∧ c ≠ '/' ∧ c ≠ ',' ∧ ¬ (c = ']' ∨ c = '\x7d') := by
  have hblank : ∀ d ∈ [' ', '\t', '\n', '\r'],
      d ≠ '"' ∧ d ≠ '/' ∧ d ≠ ',' ∧ ¬ (d = ']' ∨ d = '\x7d') := by simp
  exact hblank c (Json.isSpace_iff.1 h)

theorem Passes.blank {c : Char} (h : Json.isSpace c = true) (rest : List Char) :
    Passes [c] rest := by
  obtain ⟨hquote, hslash, hcomma, hbracket⟩ := ne_of_isSpace h
  refine ⟨⟨[c], by simpa [Blanks] using h, .kept hquote hslash fun heq => absurd heq hcomma⟩, ?_⟩
  rw [List.singleton_append, gapBeforeBracket?, if_neg hbracket, isSpace_eq, if_pos h]
  rfl

/-- A comment passes if all of it is taken for one. -/
theorem Passes.comment {part rest : List Char}
    (h : comment? ('/' :: (part ++ rest)) = some (part.length + 1)) :
    Passes ('/' :: part) rest := by
  have hblanked : BlanksTo ('/' :: part) (('/' :: part).map blankOf) rest := by
    refine .whole false ?_
    rw [List.cons_append, List.length_cons, blankFrom_cons, blankFrom, if_neg (by decide), h]
    rfl
  refine ⟨⟨_, blanks_blankOf _, hblanked⟩, ?_⟩
  have hbracket : ¬ ('/' = ']' ∨ '/' = '\x7d') := by decide
  rw [List.cons_append, gapBeforeBracket?, if_neg hbracket, if_neg (by decide), h]
  dsimp only
  rw [Nat.add_sub_cancel, gapBeforeBracket?_skip, List.drop_left]
  rfl

/-- A line comment is taken up to the end of its line. -/
theorem comment?_line {body : List Char} (hbody : ∀ c ∈ body, isLineEnd c = false) {last : Char}
    (hlast : isLineEnd last = true) (rest : List Char) :
    comment? ('/' :: '/' :: (body ++ last :: rest)) = some (body.length + 2) := by
  have htake : (body ++ last :: rest).takeWhile (fun c => !isLineEnd c) = body := by
    rw [List.takeWhile_append_of_pos (by simpa using hbody),
      List.takeWhile_cons_of_neg (by simp [hlast]), List.append_nil]
  rw [comment?, htake, Nat.add_comm]

/-- A block is taken up to its end, whatever it holds. -/
theorem comment?_block {body : List Char} (hbody : ¬ ['*', '/'] <:+: body) (rest : List Char) :
    comment? ('/' :: '*' :: (body ++ '*' :: '/' :: rest)) = some (body.length + 4) := by
  have hrest : blockRest? (body ++ '*' :: '/' :: rest) = some (body.length + 2) := by
    induction body with
    | nil => rfl
    | cons c body ih =>
      have hinner := ih fun h => hbody (h.trans (List.suffix_cons c body).isInfix)
      have hnot : ∀ others, c = '*' → body ++ '*' :: '/' :: rest = '/' :: others → False := by
        rintro others rfl heq
        cases body with
        | nil => cases heq
        | cons d body =>
          cases heq
          exact hbody ⟨[], body, rfl⟩
      rw [List.cons_append, blockRest?, hinner]
      · rfl
      · exact hnot
  rw [comment?, hrest]
  rfl

theorem isSpace_of_isLineEnd {c : Char} (h : isLineEnd c = true) : Json.isSpace c = true := by
  simp only [isLineEnd, Bool.or_eq_true, beq_iff_eq] at h
  rcases h with rfl | rfl <;> rfl

/-- A gap passes. The line end behind a line comment is a blank of its own. -/
theorem Gap.passes {gap : List Char} (h : Gap gap) (rest : List Char) : Passes gap rest := by
  induction h with
  | nil => exact .nil rest
  | blank hblank _ ih => exact (Passes.blank hblank _).append ih
  | line body hbody last hlast gap _ ih =>
    have hcomment := comment?_line hbody hlast (gap ++ rest)
    exact .append (.comment hcomment) (.append (.blank (isSpace_of_isLineEnd hlast) _) ih)
  | block body hbody gap _ ih =>
    refine .append (.comment ?_) ih
    simpa using comment?_block hbody (gap ++ rest)

/-! ## Tokens -/

theorem stringRest?_append {cs : List Char} (h : ∀ c ∈ cs, c ≠ '"' ∧ c ≠ '\\') (rest : List Char) :
    stringRest? (cs ++ rest) = (stringRest? rest).map (· + cs.length) := by
  induction cs with
  | nil => simp
  | cons c cs ih =>
    obtain ⟨hquote, hback⟩ := h c (.head _)
    have hstep : stringRest? (c :: (cs ++ rest)) = (stringRest? (cs ++ rest)).map (· + 1) := by
      rw [stringRest?]
      · exact hquote
      · exact fun heq _ => hback heq
      · exact fun _ _ heq _ => hback heq
    rw [List.cons_append, hstep, ih fun d hd => h d (.tail _ hd), Option.map_map]
    rfl

/-- A unit of a string closes nothing. -/
theorem stringRest?_unit (unit : StringUnit) (rest : List Char) :
    stringRest? (unit.chars ++ rest) = (stringRest? rest).map (· + unit.chars.length) := by
  cases unit with
  | plain c hquote hback hcontrol =>
    exact stringRest?_append (List.forall_mem_singleton.2 ⟨hquote, hback⟩) rest
  | short c hletter => rfl
  | code digits hlength hdigits =>
    have hplain : ∀ d ∈ digits, d ≠ '"' ∧ d ≠ '\\' := by
      refine fun d hd => ⟨?_, ?_⟩ <;>
      · rintro rfl
        cases hdigits _ hd
    have hstep : stringRest? ('\\' :: 'u' :: (digits ++ rest)) =
        (stringRest? (digits ++ rest)).map (· + 2) := rfl
    rw [StringUnit.chars, List.cons_append, List.cons_append, hstep, stringRest?_append hplain,
      Option.map_map]
    rfl

/-- What is left of a string is taken up to its closing quote. -/
theorem stringRest?_chars (s : StringText) (rest : List Char) :
    stringRest? (s.flatMap StringUnit.chars ++ '"' :: rest) =
      some ((s.flatMap StringUnit.chars).length + 1) := by
  induction s with
  | nil => rfl
  | cons unit s ih =>
    rw [List.flatMap_cons, List.append_assoc, stringRest?_unit, ih, Option.map_some,
      List.length_append, Nat.add_right_comm, Nat.add_comm unit.chars.length]

theorem blanksTo_string (s : StringText) (rest : List Char) :
    BlanksTo (Token.string s).chars (Token.string s).chars rest := by
  refine .whole true ?_
  have hrest := stringRest?_chars s rest
  rw [Token.chars, List.cons_append, List.append_assoc, List.length_cons, blankFrom_cons,
    blankFrom, if_pos rfl, List.length_append]
  rw [List.singleton_append, hrest]
  rfl

/-- What an exponent is written with. -/
theorem mem_exponent {e : Json.ExponentText} {c : Char} (hc : c ∈ e.chars) :
    c.isDigit = true ∨ c ∈ ['-', '+', '.', 'e', 'E'] := by
  rcases List.mem_cons.1 hc with rfl | hc
  · rcases e.isLetter with h | h <;> exact .inr (by simp [h])
  rcases List.mem_append.1 hc with hc | hc
  · rcases hsign : e.minus? with _ | _ | _ <;> rw [hsign] at hc
    · cases hc
    · exact .inr (by simp [List.mem_singleton.1 hc])
    · exact .inr (by simp [List.mem_singleton.1 hc])
  · exact .inl (e.digits.isDigit c hc)

/-- What a number is written with. -/
theorem mem_chars {n : Json.NumberText} {c : Char} (hc : c ∈ n.chars) :
    c.isDigit = true ∨ c ∈ ['-', '+', '.', 'e', 'E'] := by
  obtain ⟨negative, integer, hleading, fraction?, exponent?⟩ := n
  simp only [Json.NumberText.chars, List.mem_append] at hc
  rcases hc with hc | hc | hc | hc
  · cases negative with
    | true => exact .inr (by simp_all)
    | false => cases hc
  · exact .inl (integer.isDigit c hc)
  · cases fraction? with
    | none => cases hc
    | some d =>
      rcases List.mem_cons.1 hc with rfl | hc
      · exact .inr (by decide)
      · exact .inl (d.isDigit c hc)
  · cases exponent? with
    | none => cases hc
    | some e => exact mem_exponent hc

/-- A token stays. A comma stays if nothing closes behind it. -/
theorem blanksTo_token (t : Token) {rest : List Char}
    (hcomma : t = .mark .comma → gapBeforeBracket? 0 rest = none) :
    BlanksTo t.chars t.chars rest := by
  cases t with
  | mark m =>
    refine .kept (by cases m <;> decide) (by cases m <;> decide) fun heq => hcomma ?_
    cases m <;> first | rfl | cases heq
  | string s => exact blanksTo_string s rest
  | number n =>
    refine .kept_all (fun c hc => ?_) rest
    rcases mem_chars hc with hdigit | hsign
    · refine ⟨?_, ?_, ?_⟩ <;>
      · rintro rfl
        cases hdigit
    · exact (by simp : ∀ d ∈ ['-', '+', '.', 'e', 'E'], d ≠ '"' ∧ d ≠ '/' ∧ d ≠ ',') c hsign
  | word w => cases w <;> exact .kept_all (by simp [Token.chars, Json.Word.chars]) rest

/-- A comma looks no further than the token behind it. -/
theorem gapBeforeBracket?_token (t : Token) (rest : List Char) :
    gapBeforeBracket? 0 (t.chars ++ rest) = if t.isClose then some 0 else none := by
  cases t with
  | mark m => cases m <;> rfl
  | string s => rfl
  | number n =>
    obtain ⟨c, tail, hn, hc⟩ := n.exists_chars_eq
    have hbracket : ¬ (c = ']' ∨ c = '\x7d') := fun h =>
      Json.notMem_of_startsNumber hc (by simp) (by simpa using h : c ∈ [']', '\x7d'])
    have hspace : ¬ isSpace c = true := fun h =>
      Json.notMem_of_startsNumber hc (by simp) (Json.isSpace_iff.1 (isSpace_eq c ▸ h))
    have hslash : c ≠ '/' := fun h =>
      Json.notMem_of_startsNumber hc (by simp) (List.mem_singleton.2 h)
    rw [Token.chars, hn, List.cons_append, gapBeforeBracket?, if_neg hbracket, if_neg hspace,
      comment?_of_ne hslash]
    rfl
  | word w => cases w <;> rfl

/-! ## Texts -/

/-- Behind a comma stands nothing that closes. -/
theorem gapBeforeBracket?_of_laid {ts : List Token} {cs : List Char} (h : Laid Before Gap ts cs)
    (hopens : ∀ t ∈ ts.head?, t.isClose = false) : gapBeforeBracket? 0 cs = none := by
  cases h with
  | nil gap h =>
    have hpasses := (h.passes []).gapBeforeBracket?_eq
    rwa [List.append_nil] at hpasses
  | @cons t gap h _ _ _ =>
    have ht := hopens t rfl
    cases h with
    | gap h => rw [(h.passes _).gapBeforeBracket?_eq, gapBeforeBracket?_token, ht]; rfl
    | comma hclose _ _ => rw [ht] at hclose; cases hclose

/-- Blanks stay. -/
theorem blanksTo_blanks {gap : List Char} (h : Blanks gap) (rest : List Char) :
    BlanksTo gap gap rest := by
  refine .kept_all (fun c hc => ?_) rest
  obtain ⟨hquote, hslash, hcomma, -⟩ := ne_of_isSpace (h c hc)
  exact ⟨hquote, hslash, hcomma⟩

/-- What stands before a token becomes blanks. A comma goes, as the token closes something. -/
theorem Before.exists_blanksTo {t : Token} {gap : List Char} (h : Before t gap)
    (rest : List Char) : ∃ gap', Blanks gap' ∧ BlanksTo gap gap' (t.chars ++ rest) := by
  cases h with
  | gap h => exact (h.passes _).exists_blanksTo
  | @comma hclose before after hbefore hafter =>
    obtain ⟨before', hblanks, hblanksTo⟩ :=
      (hbefore.passes (',' :: after ++ (t.chars ++ rest))).exists_blanksTo
    have hlength : gapBeforeBracket? 0 (after ++ (t.chars ++ rest)) = some after.length := by
      rw [(hafter.passes _).gapBeforeBracket?_eq, gapBeforeBracket?_token, hclose]
      simp
    have hcomma : BlanksTo (',' :: after) ((',' :: after).map blankOf) (t.chars ++ rest) := by
      refine .whole false ?_
      rw [List.cons_append, List.length_cons, blankFrom_cons, blankFrom, if_neg (by decide),
        comment?_of_ne (by decide)]
      dsimp only
      rw [if_neg (by simp [opensBlock]), if_pos rfl, hlength]
      rfl
    exact ⟨_, hblanks.append (blanks_blankOf _), hblanksTo.append hcomma⟩

/-- What may stand next to a comma closes nothing. -/
theorem gapBeforeBracket?_of_isChain {t : Token} {ts : List Token} {cs : List Char}
    (h : Laid Before Gap ts cs) (hchain : (t :: ts).IsChain Token.MayPrecede)
    (hcomma : t = .mark .comma) : gapBeforeBracket? 0 cs = none :=
  gapBeforeBracket?_of_laid h fun b hb => ((List.isChain_cons.1 hchain).1 b hb).comma hcomma

/-- A text without decoration stays. -/
theorem toOption_blankFrom_of_spaced {ts : List Token} {cs : List Char} (h : Spaced ts cs)
    (hchain : ts.IsChain Token.MayPrecede) : (blankFrom true 0 cs).toOption = some cs := by
  induction h with
  | nil gap h =>
    simpa [BlanksTo, blankFrom, Except.toOption] using blanksTo_blanks h []
  | @cons t gap h ts cs hrest ih =>
    have htoken := blanksTo_token t (gapBeforeBracket?_of_isChain (laid_of_spaced hrest) hchain)
    have hgap := blanksTo_blanks h (t.chars ++ cs)
    rw [hgap, htoken, ih (List.isChain_cons.1 hchain).2]
    rfl

/-- A decorated text becomes one without decoration. -/
theorem exists_toOption_blankFrom {ts : List Token} {cs : List Char} (h : Laid Before Gap ts cs)
    (hchain : ts.IsChain Token.MayPrecede) :
    ∃ out, (blankFrom true 0 cs).toOption = some out ∧ Spaced ts out := by
  induction h with
  | nil gap h =>
    obtain ⟨gap', hblanks, hblanksTo⟩ := (h.passes []).exists_blanksTo
    rw [BlanksTo, List.append_nil] at hblanksTo
    exact ⟨gap' ++ [], hblanksTo, by simpa using Laid.nil gap' hblanks⟩
  | @cons t gap h ts cs hrest ih =>
    obtain ⟨out, hout, hspaced⟩ := ih (List.isChain_cons.1 hchain).2
    obtain ⟨gap', hblanks, hgap⟩ := h.exists_blanksTo cs
    have htoken := blanksTo_token t (gapBeforeBracket?_of_isChain hrest hchain)
    refine ⟨gap' ++ (t.chars ++ out), ?_, .cons gap' hblanks hspaced⟩
    rw [hgap, htoken, hout]
    rfl

/-! ## Sources -/

/-- A sign or a digit is not blank. -/
theorem isBlank_of_startsNumber {c : Char} (hc : (c = '-' || c.isDigit) = true) :
    Text.isBlank c = false := by
  simp only [Bool.or_eq_true, decide_eq_true_eq] at hc
  rcases hc with rfl | hdigit
  · rfl
  · have hrange : 48 ≤ c.toNat ∧ c.toNat ≤ 57 := by
      simpa [Char.isDigit, UInt32.le_iff_toNat_le] using hdigit
    simp [Text.isBlank]
    omega

/-- A token does not begin with a blank. -/
theorem exists_chars_eq (t : Token) :
    ∃ c tail, t.chars = c :: tail ∧ Text.isBlank c = false := by
  cases t with
  | mark m => exact ⟨_, _, rfl, by cases m <;> rfl⟩
  | string s => exact ⟨_, _, rfl, rfl⟩
  | number n =>
    obtain ⟨c, tail, hn, hc⟩ := n.exists_chars_eq
    exact ⟨c, tail, hn, isBlank_of_startsNumber hc⟩
  | word w => cases w <;> exact ⟨_, _, rfl, rfl⟩

/-- A JSON text is not blank. -/
theorem isBlankText_of_denotes {cs : List Char} {v : Tree} (h : Denotes cs v) :
    Text.isBlankText cs = false := by
  obtain ⟨a, rest, hv, -⟩ := v.exists_tokens_eq
  rw [Denotes, hv] at h
  rw [Text.isBlankText]
  cases h with
  | cons gap h hrest =>
    obtain ⟨c, tail, ha, hc⟩ := exists_chars_eq a
    simp [ha, hc]

/-- Blanking a source blanks its characters. -/
theorem blankChars_eq_ok {source out : String} (h : blank source = .ok out) :
    blankChars source.toList = .ok out.toList := by
  unfold blank at h
  split at h
  · next text htext =>
    cases h
    rw [htext, String.toList_ofList]
  · cases h

/-- What a source declares once it is blanked. -/
theorem toOption_ofSource {source out : String} (hblank : blank source = .ok out) {v : Tree}
    (hout : Denotes out.toList v) :
    (Declarations.ofSource source).toOption =
      (Json.readArray out.toList).toOption.bind fun records =>
        (Declarations.ofRecords records).toOption := by
  have hnonblank := isBlankText_of_denotes hout
  rw [Declarations.ofSource, records, recordsOfChars, blankChars_eq_ok hblank]
  dsimp only
  rw [hnonblank, if_neg Bool.false_ne_true]
  cases Json.readArray out.toList <;> rfl

/-- **Comments and trailing commas leave no trace.** A JSON text stays as it is, and every
decoration of it becomes a JSON text for the same value; it is read alike, and the source makes the
same declarations. -/
theorem blank_decorated {v : Tree} {t : String} (ht : Denotes t.toList v) :
    blank t = .ok t ∧
      ∀ t' : String, Decorated t'.toList v →
        ∃ out : String, blank t' = .ok out ∧ Denotes out.toList v ∧
          (Json.readArray out.toList).toOption = (Json.readArray t.toList).toOption ∧
          (Declarations.ofSource t').toOption = (Declarations.ofSource t).toOption := by
  have hblank {s : String} {out : List Char} (h : (blankFrom true 0 s.toList).toOption = some out) :
      blank s = .ok (.ofList out) := by
    rw [blank, blankChars, toOption_eq_some.1 h]
  have hstrict : blank t = .ok t := by
    rw [hblank (toOption_blankFrom_of_spaced ht v.isChain_tokens), String.ofList_toList]
  refine ⟨hstrict, fun t' ht' => ?_⟩
  obtain ⟨out, hout, hspaced⟩ := exists_toOption_blankFrom ht' v.isChain_tokens
  have hdenotes : Denotes (String.ofList out).toList v := by rwa [String.toList_ofList]
  have hread : (Json.readArray (String.ofList out).toList).toOption =
      (Json.readArray t.toList).toOption :=
    (Json.toOption_readArray hdenotes).trans (Json.toOption_readArray ht).symm
  refine ⟨_, hblank hout, hdenotes, hread, ?_⟩
  rw [toOption_ofSource (hblank hout) hdenotes, toOption_ofSource hstrict ht, hread]

/-- An array of an object and a number. The key looks like a comment, and the string like its own
end. -/
def markers : Tree :=
  .array [.object [([.plain '/' (by decide) (by decide) (by decide),
    .plain '/' (by decide) (by decide) (by decide)], .string [.short '"' (by decide)])],
    .number ⟨true, ⟨['1'], by simp, by simp⟩, by simp, none, none⟩]

/-- A text for the value. -/
def markersText : String := "[\x7b\"//\": \"\\\"\"\x7d, -1]"

/-- The text with a quote, commas and brackets in comments, one of them between a trailing comma and
its bracket. -/
def markersDecorated : String :=
  "[ // \" , ]\n\x7b\"//\" /* ] */: \"\\\"\", /* \x7d */\r\x7d, -1 ,]//\n"

theorem blank_decorated_markers :
    Denotes markersText.toList markers ∧ Decorated markersDecorated.toList markers ∧
      blank markersText = .ok markersText ∧
        ∃ out : String, blank markersDecorated = .ok out ∧ Denotes out.toList markers ∧
          (Json.readArray out.toList).toOption = (Json.readArray markersText.toList).toOption ∧
          (Declarations.ofSource markersDecorated).toOption =
            (Declarations.ofSource markersText).toOption := by
  have hspace : Blanks [' '] := by simp [Blanks, Json.isSpace]
  have ht : Denotes markersText.toList markers :=
    .cons [] .nil <| .cons [] .nil <| .cons [] .nil <| .cons [] .nil <| .cons [' '] hspace <|
      .cons [] .nil <| .cons [] .nil <| .cons [' '] hspace <| .cons [] .nil <| .nil [] .nil
  have hblank : Gap [' '] := .blank rfl .nil
  have hline : Gap " // \" , ]\n".toList :=
    .blank rfl (.line [' ', '"', ' ', ',', ' ', ']'] (by simp [isLineEnd]) '\n' rfl [] .nil)
  have hblock : Gap " /* ] */".toList :=
    .blank rfl (.block [' ', ']', ' '] (by simp [List.infix_cons_iff]) [] .nil)
  have hbrace : Gap " /* \x7d */\r".toList :=
    .blank rfl (.block [' ', '\x7d', ' '] (by simp [List.infix_cons_iff]) ['\r'] (.blank rfl .nil))
  have hend : Gap "//\n".toList := .line [] (by simp) '\n' rfl [] .nil
  have ht' : Decorated markersDecorated.toList markers :=
    .cons [] (.gap .nil) <| .cons " // \" , ]\n".toList (.gap hline) <| .cons [] (.gap .nil) <|
      .cons " /* ] */".toList (.gap hblock) <| .cons [' '] (.gap hblank) <|
      .cons ", /* \x7d */\r".toList (.comma rfl .nil hbrace) <| .cons [] (.gap .nil) <|
      .cons [' '] (.gap hblank) <| .cons " ,".toList (.comma rfl hblank .nil) <|
      .nil "//\n".toList hend
  exact ⟨ht, ht', (blank_decorated ht).1, (blank_decorated ht).2 _ ht'⟩

end WirePlan.Source
