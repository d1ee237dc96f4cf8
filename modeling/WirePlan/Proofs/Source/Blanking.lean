import WirePlan.Proofs.Outcome
import WirePlan.Proofs.Source.Scan

/-!
# Blanking is what a scan says

Blanking fails exactly on the texts that a scan leaves inside a string or a block comment, and what
it keeps and what it blanks can be told index by index from the marks of the scan: comments are
blanked, and so are the commas that only blanks and comments part from a closing bracket, with these
blanks; every other character stays (`blank_eq_scan`).

Between the two stands the text blanked by its marks alone (`blankMarked`), character by character
with one bit, whether the character goes on with a trailing comma. Blanking by wholes comes to the
same (`toOption_blankFrom`), because a whole is what the scanner reads as one. That the bit means
what it should is one induction over the marks (`getElem?_blankMarked`).
-/

namespace WirePlan.Source

/-- A character that may stand between a trailing comma and its bracket. -/
def isGap (x : Char × Part) : Bool := x.2 = .comment || x.2 = .text && isSpace x.1

/-- A comma of the text proper. -/
def isComma (x : Char × Part) : Bool := x.2 = .text && x.1 = ','

/-- A closing bracket of the text proper. -/
def isBracket (x : Char × Part) : Bool := x.2 = .text && (x.1 = ']' || x.1 = '\x7d')

/-- Only blanks and comments stand before a closing bracket. -/
def closes (marked : List (Char × Part)) : Bool :=
  (marked.find? fun x => !isGap x).any isBracket

/-- The text with comments and trailing commas blanked. -/
def blankMarked : (inRun : Bool) → List (Char × Part) → List Char
  | _, [] => []
  | inRun, x :: rest =>
    let goesOn := inRun && isGap x || isComma x && closes rest
    (if x.2 = .comment || goesOn then blankOf x.1 else x.1) :: blankMarked goesOn rest

/-! ## Wholes -/

/-- The characters of a whole, kept or blanked. -/
def treat (keep : Bool) (cs : List Char) : List Char := if keep then cs else cs.map blankOf

/-- The first characters are kept or blanked as the whole that they belong to. -/
theorem toOption_blankFrom_left (keep : Bool) {n : Nat} {cs : List Char} (hn : n ≤ cs.length) :
    (blankFrom keep n cs).toOption =
      (blankFrom true 0 (cs.drop n)).toOption.map (treat keep (cs.take n) ++ ·) := by
  induction n generalizing cs with
  | zero => cases cs <;> cases keep <;> simp [blankFrom, treat]
  | succ n ih =>
    cases cs with
    | nil => cases hn
    | cons c rest =>
      have hstep : (blankFrom keep (n + 1) (c :: rest)).toOption =
          (blankFrom keep n rest).toOption.map (treat keep [c] ++ ·) := by
        rw [blankFrom]
        cases blankFrom keep n rest <;> cases keep <;> rfl
      rw [hstep, ih (Nat.le_of_succ_le_succ hn), Option.map_map]
      cases keep <;> simp [treat, Function.comp_def]

theorem blankMarked_string (cs : List Char) (marked : List (Char × Part)) :
    blankMarked false (cs.map (·, .string) ++ marked) = cs ++ blankMarked false marked := by
  induction cs with
  | nil => rfl
  | cons c rest ih => simp [blankMarked, isGap, isComma, ih]

theorem blankMarked_comment (inRun : Bool) (cs : List Char) (marked : List (Char × Part)) :
    blankMarked inRun (cs.map (·, .comment) ++ marked) =
      cs.map blankOf ++ blankMarked inRun marked := by
  induction cs with
  | nil => rfl
  | cons c rest ih => simp [blankMarked, isGap, isComma, ih]

theorem closes_comment (cs : List Char) (marked : List (Char × Part)) :
    closes (cs.map (·, .comment) ++ marked) = closes marked := by
  have hgap : (cs.map (·, Part.comment)).find? (fun x => !isGap x) = none := by simp [isGap]
  rw [closes, closes, List.find?_append, hgap, Option.none_or]

theorem exists_succ_of_comment? {cs : List Char} {n : Nat} (h : comment? cs = some n) :
    ∃ k, n = k + 1 := by
  unfold comment? at h
  split at h
  · cases h
    exact ⟨_, Nat.add_right_comm 1 1 _⟩
  · obtain ⟨k, -, rfl⟩ := Option.map_eq_some_iff.1 h
    exact ⟨k + 1, rfl⟩
  · cases h

/-! ## What stands between a comma and a bracket -/

theorem gapBeforeBracket?_skip (n : Nat) (cs : List Char) :
    gapBeforeBracket? n cs = gapBeforeBracket? 0 (cs.drop n) := by
  induction n generalizing cs with
  | zero => rfl
  | succ n ih =>
    cases cs with
    | nil => rfl
    | cons c rest => exact ih rest

/-- Blanks and comments of this length stand before a closing bracket, and the scan stands in plain
text there. -/
structure GapReads (cs : List Char) (n : Nat) : Prop where
  le_length : n ≤ cs.length
  closes : closes (Mode.plain.marks cs) = true
  blank_eq : blankMarked true (Mode.plain.marks cs) =
    (cs.take n).map blankOf ++ blankMarked false (Mode.plain.marks (cs.drop n))
  after_eq : Mode.plain.after cs = Mode.plain.after (cs.drop n)

/-- A comment in front of a gap belongs to it. -/
theorem GapReads.comment {cs : List Char} {k n : Nat} (hread : Reads .plain .comment cs k)
    (h : GapReads (cs.drop k) n) : GapReads cs (k + n) where
  le_length := by
    have hle := h.le_length
    rw [List.length_drop] at hle
    have := hread.le_length
    omega
  closes := by rw [hread.marks_eq, closes_comment, h.closes]
  blank_eq := by
    rw [hread.marks_eq, blankMarked_comment, h.blank_eq, List.take_add, List.drop_drop,
      List.map_append, List.append_assoc]
  after_eq := by rw [hread.after_eq, h.after_eq, List.drop_drop]

/-- A blank in front of a gap belongs to it. -/
theorem GapReads.space {c : Char} {rest : List Char} {n : Nat} (hspace : isSpace c = true)
    (hnext : Mode.plain.next c rest.head? = .plain) (h : GapReads rest n) :
    GapReads (c :: rest) (n + 1) where
  le_length := Nat.succ_le_succ h.le_length
  closes := by
    have hcloses := h.closes
    simpa [Source.closes, Mode.marks, Mode.partOf, hnext, Mode.part, isGap, hspace] using hcloses
  blank_eq := by
    simp [Mode.marks, Mode.partOf, hnext, Mode.part, blankMarked, isGap, hspace, h.blank_eq]
  after_eq := by rw [Mode.after, hnext, h.after_eq, List.drop_succ_cons]

/-- The scan goes on in plain text behind a bracket or a blank. -/
theorem next_plain_of_ne {c : Char} (hquote : c ≠ '"') (hslash : c ≠ '/') (ahead : Option Char) :
    Mode.plain.next c ahead = .plain := by
  simp [Mode.next, hquote, hslash]

theorem isSpace_ne {c : Char} (h : isSpace c = true) : c ≠ '"' ∧ c ≠ '/' := by
  constructor <;> rintro rfl <;> cases h

/-- Nothing is left of a gap at the bracket. -/
theorem GapReads.bracket {c : Char} {rest : List Char} (h : c = ']' ∨ c = '\x7d') :
    GapReads (c :: rest) 0 := by
  have hnext : Mode.plain.next c rest.head? = .plain := by
    rcases h with rfl | rfl <;> exact next_plain_of_ne (by decide) (by decide) _
  have hgap : isSpace c = false := by rcases h with rfl | rfl <;> rfl
  have hcomma : c ≠ ',' := by rcases h with rfl | rfl <;> decide
  refine ⟨Nat.zero_le _, ?_, ?_, rfl⟩
  · simp [Source.closes, Mode.marks, Mode.partOf, hnext, Mode.part, isGap, hgap, isBracket, h]
  · simp [Mode.marks, Mode.partOf, hnext, Mode.part, blankMarked, isGap, hgap, isComma, hcomma]

/-- A block comment that is never closed goes on to the end of the text. -/
theorem comment_of_unclosed {cs : List Char} (h : blockRest? cs = none) :
    ∀ x ∈ Mode.block.marks cs, x.2 = .comment := by
  fun_induction blockRest? cs with
  | case1 => exact fun _ hx => absurd hx List.not_mem_nil
  | case2 rest => cases h
  | case3 c rest hend ih =>
    rw [Mode.marks, next_block hend]
    exact List.forall_mem_cons.2 ⟨rfl, ih (Option.map_eq_none_iff.1 h)⟩

/-- What is neither a blank nor a complete comment ends a gap, and only a bracket closes it. -/
theorem closes_eq_false {c : Char} {rest : List Char} (hbracket : ¬ (c = ']' ∨ c = '\x7d'))
    (hspace : ¬ isSpace c) (hcomment : comment? (c :: rest) = none) :
    closes (Mode.plain.marks (c :: rest)) = false := by
  by_cases hquote : c = '"'
  · subst hquote
    rfl
  · by_cases hopens : opensBlock (c :: rest)
    · have hall : ∀ x ∈ Mode.plain.marks (c :: rest), x.2 = .comment := by
        unfold opensBlock at hopens
        split at hopens
        · next others heq =>
          cases heq
          have hrest := comment_of_unclosed (Option.map_eq_none_iff.1 hcomment)
          rintro x (_ | ⟨_, _ | ⟨_, hx⟩⟩)
          · rfl
          · rfl
          · exact hrest x hx
        · cases hopens
      have hgap : (Mode.plain.marks (c :: rest)).find? (fun x => !isGap x) = none :=
        List.find?_eq_none.2 fun x hx => by simp [isGap, hall x hx]
      rw [closes, hgap]
      rfl
    · have hnext := next_plain hquote hcomment hopens
      have hspace : isSpace c = false := by simpa using hspace
      simpa [closes, Mode.marks, Mode.partOf, hnext, Mode.part, isGap, hspace, isBracket] using
        hbracket

/-- A gap before a bracket is what the scan takes for one. -/
theorem gap_cases (cs : List Char) :
    (∃ n, gapBeforeBracket? 0 cs = some n ∧ GapReads cs n) ∨
      gapBeforeBracket? 0 cs = none ∧ closes (Mode.plain.marks cs) = false := by
  induction hlength : cs.length using Nat.strongRecOn generalizing cs with
  | ind length ih =>
    subst hlength
    cases cs with
    | nil => exact .inr ⟨rfl, rfl⟩
    | cons c rest =>
      by_cases hbracket : c = ']' ∨ c = '\x7d'
      · exact .inl ⟨0, by simp [gapBeforeBracket?, hbracket], .bracket hbracket⟩
      by_cases hspace : isSpace c
      · have hgap : gapBeforeBracket? 0 (c :: rest) = (gapBeforeBracket? 0 rest).map (· + 1) := by
          simp [gapBeforeBracket?, hbracket, hspace]
        obtain ⟨hquote, hslash⟩ := isSpace_ne hspace
        have hnext := next_plain_of_ne hquote hslash rest.head?
        rw [hgap]
        rcases ih _ (Nat.lt_succ_self _) rest rfl with ⟨n, hn, hreads⟩ | ⟨hnone, hcloses⟩
        · exact .inl ⟨n + 1, by rw [hn]; rfl, .space hspace hnext hreads⟩
        · refine .inr ⟨by rw [hnone]; rfl, ?_⟩
          simpa [closes, Mode.marks, Mode.partOf, hnext, Mode.part, isGap, hspace] using hcloses
      cases hcomment : comment? (c :: rest) with
      | none =>
        refine .inr ⟨?_, closes_eq_false hbracket hspace hcomment⟩
        simp [gapBeforeBracket?, hbracket, hspace, hcomment]
      | some n =>
        obtain ⟨k, rfl⟩ := exists_succ_of_comment? hcomment
        have hgap : gapBeforeBracket? 0 (c :: rest) =
            (gapBeforeBracket? 0 (rest.drop k)).map (· + (k + 1)) := by
          simp [gapBeforeBracket?, hbracket, hspace, hcomment, gapBeforeBracket?_skip k]
        have hread := reads_comment hcomment
        have hless : (rest.drop k).length < (c :: rest).length := by
          rw [List.length_drop, List.length_cons]
          omega
        rw [hgap]
        rcases ih _ hless (rest.drop k) rfl with ⟨n, hn, hreads⟩ | ⟨hnone, hcloses⟩
        · refine .inl ⟨k + 1 + n, ?_, .comment hread hreads⟩
          rw [hn, Nat.add_comm (k + 1)]
          rfl
        · refine .inr ⟨by rw [hnone]; rfl, ?_⟩
          rw [hread.marks_eq, closes_comment]
          exact hcloses

/-! ## The whole text -/

/-- Blanking the text by wholes is blanking it by the marks of the scan, and fails where the scan
ends inside something. -/
def BlankedByMarks (cs : List Char) : Prop :=
  (blankFrom true 0 cs).toOption =
    if (Mode.plain.after cs).isOpen then none
    else some (blankMarked false (Mode.plain.marks cs))

/-- A whole in front is kept or blanked, and the text behind it is blanked by its marks. -/
theorem BlankedByMarks.whole (keep : Bool) {n : Nat} {cs : List Char}
    (hrest : BlankedByMarks (cs.drop n)) (hle : n ≤ cs.length)
    (hwhole : blankFrom true 0 cs = blankFrom keep n cs)
    (hafter : Mode.plain.after cs = Mode.plain.after (cs.drop n))
    (hblank : blankMarked false (Mode.plain.marks cs) =
      treat keep (cs.take n) ++ blankMarked false (Mode.plain.marks (cs.drop n))) :
    BlankedByMarks cs := by
  rw [BlankedByMarks, hwhole, toOption_blankFrom_left keep hle, hrest, hafter, hblank]
  split <;> rfl

/-- A text that is not blanked ends inside something. -/
theorem BlankedByMarks.unclosed {cs e : List Char} (herror : blankFrom true 0 cs = .error e)
    (hopen : (Mode.plain.after cs).isOpen = true) : BlankedByMarks cs := by
  rw [BlankedByMarks, herror, if_pos hopen]
  rfl

theorem blankFrom_cons (keep : Bool) (n : Nat) (c : Char) (rest : List Char) :
    blankFrom keep (n + 1) (c :: rest) =
      blankFrom.cons (if keep then c else blankOf c) (blankFrom keep n rest) := by
  rw [blankFrom]
  cases blankFrom keep n rest <;> rfl

section

variable {c : Char} {rest : List Char} (hrest : ∀ n, BlankedByMarks (rest.drop n))

include hrest

theorem BlankedByMarks.string : BlankedByMarks ('"' :: rest) := by
  cases hstring : stringRest? rest with
  | none =>
    refine .unclosed (e := '"' :: rest) ?_ (isOpen_after_string hstring)
    rw [blankFrom, hstring]
    rfl
  | some n =>
    have hread : Reads .plain .string ('"' :: rest) (n + 1) :=
      .cons rfl (reads_stringRest hstring)
    refine .whole true (hrest n) hread.le_length ?_ hread.after_eq ?_
    · rw [blankFrom_cons, blankFrom, hstring]
      rfl
    · rw [hread.marks_eq, blankMarked_string]
      rfl

theorem BlankedByMarks.comment (hquote : c ≠ '"') {n : Nat} (h : comment? (c :: rest) = some n) :
    BlankedByMarks (c :: rest) := by
  obtain ⟨k, rfl⟩ := exists_succ_of_comment? h
  have hread := reads_comment h
  refine .whole false (hrest k) hread.le_length ?_ hread.after_eq ?_
  · rw [blankFrom_cons, blankFrom, if_neg hquote, h]
    rfl
  · rw [hread.marks_eq, blankMarked_comment]
    rfl

theorem BlankedByMarks.text (hquote : c ≠ '"') (hcomment : comment? (c :: rest) = none)
    (hopens : ¬ opensBlock (c :: rest)) : BlankedByMarks (c :: rest) := by
  have hnext := next_plain hquote hcomment hopens
  have hafter : Mode.plain.after (c :: rest) = Mode.plain.after rest := by rw [Mode.after, hnext]
  have hmarks : Mode.plain.marks (c :: rest) = (c, .text) :: Mode.plain.marks rest := by
    rw [Mode.marks, Mode.partOf, hnext]
    rfl
  by_cases hrun : c = ',' ∧ closes (Mode.plain.marks rest) = true
  · obtain ⟨rfl, hcloses⟩ := hrun
    rcases gap_cases rest with ⟨n, hn, hreads⟩ | ⟨-, hnone⟩
    · refine .whole (n := n + 1) false (hrest n) (Nat.succ_le_succ hreads.le_length) ?_
        (hafter.trans hreads.after_eq) ?_
      · rw [blankFrom_cons, blankFrom, if_neg hquote, hcomment, if_neg hopens, if_pos rfl, hn]
        rfl
      · have hcomma : (isComma (',', .text) && closes (Mode.plain.marks rest)) = true := by
          rw [hcloses]
          rfl
        rw [hmarks, blankMarked, hcomma]
        exact congrArg (' ' :: ·) hreads.blank_eq
    · rw [hnone] at hcloses
      cases hcloses
  · have hwhole : blankFrom true 0 (c :: rest) = blankFrom true 1 (c :: rest) := by
      rw [blankFrom_cons, blankFrom, if_neg hquote, hcomment]
      dsimp only
      rw [if_neg hopens]
      split
      · next hcomma =>
        rcases gap_cases rest with ⟨n, -, hreads⟩ | ⟨hnone, -⟩
        · exact absurd ⟨hcomma, hreads.closes⟩ hrun
        · rw [hnone]
          rfl
      · rfl
    have hkept : (isComma (c, .text) && closes (Mode.plain.marks rest)) = false := by
      simpa [isComma] using hrun
    refine .whole (n := 1) true (hrest 0) (Nat.succ_le_succ (Nat.zero_le _)) hwhole hafter ?_
    rw [hmarks, blankMarked, hkept]
    rfl

end

/-- **Every text is blanked by the marks of the scan.** The induction is on its length, as a whole
may be of any. -/
theorem blankedByMarks (cs : List Char) : BlankedByMarks cs := by
  induction hlength : cs.length using Nat.strongRecOn generalizing cs with
  | ind length ih =>
    subst hlength
    cases cs with
    | nil => rfl
    | cons c rest =>
      have hrest : ∀ n, BlankedByMarks (rest.drop n) := by
        refine fun n => ih _ ?_ _ rfl
        rw [List.length_drop, List.length_cons]
        omega
      by_cases hquote : c = '"'
      · subst hquote
        exact .string hrest
      cases hcomment : comment? (c :: rest) with
      | some n => exact .comment hrest hquote hcomment
      | none =>
        by_cases hopens : opensBlock (c :: rest)
        · refine .unclosed (e := c :: rest) ?_ (isOpen_after_opener hcomment hopens)
          rw [blankFrom, if_neg hquote, hcomment, if_pos hopens]
        · exact .text hrest hquote hcomment hopens

/-! ## Index by index -/

/-- The character goes on with a trailing comma. -/
def runAt : (inRun : Bool) → List (Char × Part) → Nat → Bool
  | _, [], _ => false
  | inRun, x :: rest, i =>
    let goesOn := inRun && isGap x || isComma x && closes rest
    match i with
    | 0 => goesOn
    | i + 1 => runAt goesOn rest i

/-- The index lies in a trailing comma: a comma of the text proper, the blanks and comments behind
it, and behind these a closing bracket. -/
def InTrailingComma (marked : List (Char × Part)) (i : Nat) : Prop :=
  ∃ start stop : Nat, start ≤ i ∧ i < stop ∧ marked[start]?.any isComma ∧
    (∀ k, start < k → k < stop → marked[k]?.any isGap) ∧ marked[stop]?.any isBracket

theorem length_blankMarked (inRun : Bool) (marked : List (Char × Part)) :
    (blankMarked inRun marked).length = marked.length := by
  induction marked generalizing inRun with
  | nil => rfl
  | cons x rest ih => exact congrArg (· + 1) (ih _)

theorem getElem?_blankMarked (inRun : Bool) (marked : List (Char × Part)) (i : Nat) :
    (blankMarked inRun marked)[i]? = marked[i]?.map fun x =>
      if x.2 = .comment || runAt inRun marked i then blankOf x.1 else x.1 := by
  induction marked generalizing inRun i with
  | nil => rfl
  | cons x rest ih =>
    cases i with
    | zero => rfl
    | succ i => exact ih _ i

theorem not_isBracket_of_isGap {x : Char × Part} (h : isGap x = true) : isBracket x = false := by
  obtain ⟨c, part⟩ := x
  cases part with
  | string | comment => rfl
  | text =>
    have hspace : isSpace c = true := by simpa [isGap] using h
    have hne : c ≠ ']' ∧ c ≠ '\x7d' := by constructor <;> rintro rfl <;> cases hspace
    simp [isBracket, hne]

theorem closes_iff {marked : List (Char × Part)} : closes marked = true ↔
    ∃ stop : Nat, (∀ k < stop, marked[k]?.any isGap) ∧ marked[stop]?.any isBracket := by
  induction marked with
  | nil => simp [closes]
  | cons x rest ih =>
    cases hgap : isGap x with
    | true =>
      have hbracket := not_isBracket_of_isGap hgap
      have hcloses : closes (x :: rest) = closes rest := by simp [closes, hgap]
      rw [hcloses, ih]
      constructor
      · rintro ⟨stop, hbefore, hstop⟩
        refine ⟨stop + 1, fun k hk => ?_, hstop⟩
        cases k with
        | zero => exact hgap
        | succ k => exact hbefore k (Nat.lt_of_succ_lt_succ hk)
      · rintro ⟨stop, hbefore, hstop⟩
        cases stop with
        | zero => simp [hbracket] at hstop
        | succ stop => exact ⟨stop, fun k hk => hbefore (k + 1) (Nat.succ_lt_succ hk), hstop⟩
    | false =>
      have hcloses : closes (x :: rest) = isBracket x := by simp [closes, hgap]
      rw [hcloses]
      constructor
      · exact fun h => ⟨0, fun _ hk => absurd hk (Nat.not_lt_zero _), h⟩
      · rintro ⟨stop, hbefore, hstop⟩
        cases stop with
        | zero => exact hstop
        | succ stop => simpa [hgap] using hbefore 0 (Nat.succ_pos _)

theorem inTrailingComma_zero {x : Char × Part} {rest : List (Char × Part)} :
    InTrailingComma (x :: rest) 0 ↔ isComma x = true ∧ closes rest = true := by
  rw [closes_iff]
  constructor
  · rintro ⟨start, stop, hstart, hi, hcomma, hgap, hstop⟩
    obtain rfl := Nat.le_zero.1 hstart
    obtain ⟨stop, rfl⟩ := Nat.exists_eq_succ_of_ne_zero (Nat.pos_iff_ne_zero.1 hi)
    exact ⟨hcomma, stop, fun k hk => hgap (k + 1) (Nat.succ_pos _) (Nat.succ_lt_succ hk), hstop⟩
  · rintro ⟨hcomma, stop, hgap, hstop⟩
    refine ⟨0, stop + 1, Nat.le_refl _, Nat.succ_pos _, hcomma, fun k hk hkstop => ?_, hstop⟩
    obtain ⟨k, rfl⟩ := Nat.exists_eq_succ_of_ne_zero (Nat.pos_iff_ne_zero.1 hk)
    exact hgap k (Nat.lt_of_succ_lt_succ hkstop)

theorem inTrailingComma_succ {x : Char × Part} {rest : List (Char × Part)} {i : Nat} :
    InTrailingComma (x :: rest) (i + 1) ↔ InTrailingComma rest i ∨
      (isComma x = true ∧ closes rest = true) ∧ ∀ k ≤ i, rest[k]?.any isGap := by
  constructor
  · rintro ⟨start, stop, hstart, hi, hcomma, hgap, hstop⟩
    obtain ⟨stop, rfl⟩ := Nat.exists_eq_succ_of_ne_zero (Nat.ne_zero_of_lt hi)
    have hi := Nat.lt_of_succ_lt_succ hi
    have hrest : ∀ k, start < k + 1 → k < stop → rest[k]?.any isGap :=
      fun k hk hkstop => hgap (k + 1) hk (Nat.succ_lt_succ hkstop)
    cases start with
    | zero =>
      refine .inr ⟨⟨hcomma, closes_iff.2 ⟨stop, fun k hk => ?_, hstop⟩⟩, fun k hk => ?_⟩
      · exact hrest k (Nat.succ_pos _) hk
      · exact hrest k (Nat.succ_pos _) (Nat.lt_of_le_of_lt hk hi)
    | succ start =>
      exact .inl ⟨start, stop, Nat.le_of_succ_le_succ hstart, hi, hcomma,
        fun k hk => hrest k (Nat.succ_lt_succ hk), hstop⟩
  · rintro (⟨start, stop, hstart, hi, hcomma, hgap, hstop⟩ | ⟨⟨hcomma, hcloses⟩, hgap⟩)
    · refine ⟨start + 1, stop + 1, Nat.succ_le_succ hstart, Nat.succ_lt_succ hi, hcomma,
        fun k hk hkstop => ?_, hstop⟩
      obtain ⟨k, rfl⟩ := Nat.exists_eq_succ_of_ne_zero (Nat.ne_zero_of_lt hk)
      exact hgap k (Nat.lt_of_succ_lt_succ hk) (Nat.lt_of_succ_lt_succ hkstop)
    · obtain ⟨stop, hbefore, hstop⟩ := closes_iff.1 hcloses
      have hi : i < stop := by
        refine Nat.lt_of_not_le fun hle => ?_
        have hstopGap := hgap stop hle
        cases hx : rest[stop]? with
        | none => simp [hx] at hstop
        | some x =>
          rw [hx, Option.any_some] at hstop hstopGap
          rw [not_isBracket_of_isGap hstopGap] at hstop
          cases hstop
      refine ⟨0, stop + 1, Nat.zero_le _, Nat.succ_lt_succ hi, hcomma, fun k hk hkstop => ?_, hstop⟩
      obtain ⟨k, rfl⟩ := Nat.exists_eq_succ_of_ne_zero (Nat.ne_zero_of_lt hk)
      exact hbefore k (Nat.lt_of_succ_lt_succ hkstop)

/-- A character goes on with a trailing comma where it lies in one, or where one has come up to the
text and only blanks and comments stand before it. -/
theorem runAt_iff {inRun : Bool} {marked : List (Char × Part)} {i : Nat} :
    runAt inRun marked i = true ↔
      InTrailingComma marked i ∨ inRun = true ∧ ∀ k ≤ i, marked[k]?.any isGap := by
  induction marked generalizing inRun i with
  | nil =>
    constructor
    · rintro ⟨⟩
    · rintro (⟨_, _, -, -, hcomma, -⟩ | ⟨-, hgap⟩)
      · cases hcomma
      · cases hgap 0 (Nat.zero_le _)
  | cons x rest ih =>
    cases i with
    | zero =>
      rw [runAt, inTrailingComma_zero]
      simp [or_comm]
    | succ i =>
      have hgaps : (∀ k ≤ i + 1, (x :: rest)[k]?.any isGap) ↔
          isGap x = true ∧ ∀ k ≤ i, rest[k]?.any isGap := by
        constructor
        · exact fun h => ⟨h 0 (Nat.zero_le _), fun k hk => h (k + 1) (Nat.succ_le_succ hk)⟩
        · rintro ⟨hx, h⟩ k hk
          cases k with
          | zero => exact hx
          | succ k => exact h k (Nat.le_of_succ_le_succ hk)
      rw [runAt, ih, inTrailingComma_succ, hgaps, Bool.or_eq_true, Bool.and_eq_true,
        Bool.and_eq_true, or_and_right, and_assoc, or_assoc, or_comm (a := inRun = true ∧ _)]

/-- The character belongs to a comment or lies in a trailing comma. -/
def IsBlanked (cs : List Char) (i : Nat) : Prop :=
  (Mode.plain.marks cs)[i]?.any (·.2 = .comment) ∨ InTrailingComma (Mode.plain.marks cs) i

/-- The character stands in a string or is one of its quotes. -/
def IsQuoted (cs : List Char) (i : Nat) : Prop := (Mode.plain.marks cs)[i]?.any (·.2 = .string)

instance (cs : List Char) (i : Nat) : Decidable (IsQuoted cs i) :=
  inferInstanceAs (Decidable ((Mode.plain.marks cs)[i]?.any (·.2 = .string) = true))

/-- Nothing that belongs to a string is blanked. -/
theorem not_isBlanked_of_isQuoted {cs : List Char} {i : Nat} (h : IsQuoted cs i) :
    ¬ IsBlanked cs i := by
  unfold IsBlanked
  obtain ⟨⟨c, part⟩, hx, hpart⟩ := (Option.any_eq_true _ _).1 h
  obtain rfl : part = .string := of_decide_eq_true hpart
  rintro (hcomment | ⟨start, stop, hstart, hi, hcomma, hgap, -⟩)
  · rw [hx] at hcomment
    cases hcomment
  · rcases Nat.eq_or_lt_of_le hstart with rfl | hstart
    · rw [hx] at hcomma
      cases hcomma
    · have hgap := hgap i hstart hi
      rw [hx] at hgap
      cases hgap

/-- The text blanked by its marks holds each character as it is or blanked. -/
theorem getElem?_blankMarked_marks {cs : List Char} {i : Nat} {c : Char} (hc : cs[i]? = some c) :
    (IsBlanked cs i → (blankMarked false (Mode.plain.marks cs))[i]? = some (blankOf c)) ∧
      (¬ IsBlanked cs i → (blankMarked false (Mode.plain.marks cs))[i]? = some c) := by
  obtain ⟨⟨c', part⟩, hx, rfl⟩ : ∃ x, (Mode.plain.marks cs)[i]? = some x ∧ x.1 = c := by
    rw [← Mode.map_marks .plain cs, List.getElem?_map] at hc
    exact Option.map_eq_some_iff.1 hc
  have hblanked : IsBlanked cs i ↔
      (part = .comment || runAt false (Mode.plain.marks cs) i) = true := by
    rw [IsBlanked, hx, Bool.or_eq_true, runAt_iff]
    simp
  rw [getElem?_blankMarked, hx, hblanked, Option.map_some]
  exact ⟨fun h => congrArg some (if_pos h), fun h => congrArg some (if_neg h)⟩

theorem blankOf_eq_lineFeed {c : Char} : blankOf c = '\n' ↔ c = '\n' := by
  unfold blankOf
  split
  · next h => simp [h]
  · next h => simp [h]

/-- A text blanked by its marks is as long as it was. -/
theorem length_blankMarked_marks (cs : List Char) :
    (blankMarked false (Mode.plain.marks cs)).length = cs.length := by
  rw [length_blankMarked, Mode.length_marks]

/-- In a text blanked by its marks line feeds stay where they are. -/
theorem lineFeed_blankMarked_marks (cs : List Char) (i : Nat) :
    (blankMarked false (Mode.plain.marks cs))[i]? = some '\n' ↔ cs[i]? = some '\n' := by
  cases hc : cs[i]? with
  | none =>
    have hlength : cs.length ≤ i := List.getElem?_eq_none_iff.1 hc
    rw [← length_blankMarked_marks cs] at hlength
    rw [List.getElem?_eq_none hlength]
  | some c =>
    obtain ⟨hblanked, hkept⟩ := getElem?_blankMarked_marks hc
    by_cases hi : IsBlanked cs i
    · rw [hblanked hi, Option.some.injEq, Option.some.injEq, blankOf_eq_lineFeed]
    · rw [hkept hi]

/-- In a text blanked by its marks no string is changed. -/
theorem quoted_blankMarked_marks {cs : List Char} {i : Nat} (h : IsQuoted cs i) :
    (blankMarked false (Mode.plain.marks cs))[i]? = cs[i]? := by
  obtain ⟨x, hx, -⟩ := (Option.any_eq_true _ _).1 h
  have hc : cs[i]? = some x.1 := by
    rw [← Mode.map_marks .plain cs, List.getElem?_map, hx]
    rfl
  rw [hc, (getElem?_blankMarked_marks hc).2 (not_isBlanked_of_isQuoted h)]

/-- A source is blanked by its marks, or it ends inside something. -/
theorem blank_cases (source : String) :
    (∃ place, blank source = .error place) ∧ (Mode.plain.after source.toList).isOpen = true ∨
      ∃ out : String, blank source = .ok out ∧
        (Mode.plain.after source.toList).isOpen = false ∧
        out.toList = blankMarked false (Mode.plain.marks source.toList) := by
  have hscan := blankedByMarks source.toList
  rw [BlankedByMarks] at hscan
  rw [blank, blankChars]
  cases hblank : blankFrom true 0 source.toList with
  | error rest =>
    rw [hblank] at hscan
    split at hscan
    · next hopen => exact .inl ⟨⟨_, rfl⟩, hopen⟩
    · cases hscan
  | ok out =>
    rw [hblank] at hscan
    split at hscan
    · cases hscan
    · next hclosed =>
      cases hscan
      exact .inr ⟨_, rfl, Bool.eq_false_iff.2 hclosed, String.toList_ofList⟩

/-- **Blanking is what a scan says.** It fails exactly on the texts that end inside a string or a
block comment. Otherwise every index holds the character that it held, blanked if it belongs to a
comment or lies in a trailing comma; so the text is as long as it was, line feeds stay where they
are, and no string is changed. -/
theorem blank_eq_scan (source : String) :
    ((∃ place, blank source = .error place) ↔ (Mode.plain.after source.toList).isOpen = true) ∧
      ∀ out : String, blank source = .ok out →
        out.length = source.length ∧
        (∀ i c, source.toList[i]? = some c →
          (IsBlanked source.toList i → out.toList[i]? = some (blankOf c)) ∧
          (¬ IsBlanked source.toList i → out.toList[i]? = some c)) ∧
        (∀ i : Nat, out.toList[i]? = some '\n' ↔ source.toList[i]? = some '\n') ∧
        ∀ i, IsQuoted source.toList i → out.toList[i]? = source.toList[i]? := by
  rcases blank_cases source with ⟨⟨place, herror⟩, hopen⟩ | ⟨text, hok, hclosed, htext⟩
  · refine ⟨⟨fun _ => hopen, fun _ => ⟨place, herror⟩⟩, fun out hout => ?_⟩
    rw [herror] at hout
    cases hout
  · refine ⟨⟨fun ⟨place, herror⟩ => ?_, fun hopen => ?_⟩, fun out hout => ?_⟩
    · rw [hok] at herror
      cases herror
    · rw [hclosed] at hopen
      cases hopen
    · rw [hok] at hout
      cases hout
      rw [← String.length_toList, ← String.length_toList, htext]
      exact ⟨length_blankMarked_marks _, fun i c => getElem?_blankMarked_marks,
        lineFeed_blankMarked_marks _, fun i => quoted_blankMarked_marks⟩

/-- A comma and a bracket in a string stay; the comma behind it goes, with the comment that hides a
bracket of its own. -/
theorem blank_eq_scan_list :
    blank "[\",]\", // ]\n]" = .ok "[\",]\"      \n]" ∧
      IsQuoted "[\",]\", // ]\n]".toList 2 ∧
      "[\",]\"      \n]".toList[2]? = "[\",]\", // ]\n]".toList[2]? := by
  have hblank : blank "[\",]\", // ]\n]" = .ok "[\",]\"      \n]" :=
    toOption_eq_some.1 (by decide +kernel)
  have hquoted : IsQuoted "[\",]\", // ]\n]".toList 2 := by decide +kernel
  exact ⟨hblank, hquoted, ((blank_eq_scan _).2 _ hblank).2.2.2 2 hquoted⟩

end WirePlan.Source
