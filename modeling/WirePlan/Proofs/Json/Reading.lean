import WirePlan.Json.Reader
import WirePlan.Proofs.Json.Tokens

/-!
# What a text is read as

A text of tokens is read as its tokens are, whatever blanks stand between them
(`toOption_readArray`). What a reader takes from a lexeme does not depend on what follows it, except
for the place of a failure (`toOption_step`, `toOption_run`), and the lexemes of a text are those of
its tokens up to the first one that is malformed (`bareLexemes_of_spaced`): tokens that may stand
next to each other are told apart even without blanks.
-/

namespace WirePlan.Json

/-! ## The reader and what follows a lexeme -/

section
variable (r : Reading) (rest : Rest)

theorem toOption_enter (frame : Frame) (expected : Expected) :
    (r.enter frame expected rest).toOption = (r.enter frame expected []).toOption := by
  unfold Reading.enter
  split <;> rfl

theorem toOption_closeArray : (r.closeArray rest).toOption = (r.closeArray []).toOption := by
  unfold Reading.closeArray
  split <;> rfl

theorem toOption_closeObject : (r.closeObject rest).toOption = (r.closeObject []).toOption := by
  unfold Reading.closeObject
  split <;> rfl

theorem toOption_openMark (m : Mark) :
    (r.openMark m rest).toOption = (r.openMark m []).toOption := by
  cases m with
  | openArray => exact toOption_enter r rest _ _
  | openObject => exact toOption_enter r rest _ _
  | closeArray | closeObject | comma | colon => rfl

end

theorem toOption_readValue (r : Reading) (l : Lexeme) :
    (r.readValue l.bare).toOption = (r.readValue l).toOption := by
  cases l with
  | mark m rest => exact (toOption_openMark r rest m).symm
  | text rest content => cases content <;> rfl
  | scalar rest content => cases content <;> rfl
  | stray rest => rfl

theorem toOption_readKey (r : Reading) (l : Lexeme) :
    (r.readKey l.bare).toOption = (r.readKey l).toOption := by
  cases l with
  | mark m rest => rfl
  | text rest content =>
    cases content with
    | error e => rfl
    | ok s =>
      simp only [Lexeme.bare, Except.mapError, Reading.readKey]
      split <;> rfl
  | scalar rest content => rfl
  | stray rest => rfl

/-- What a step makes of a mark does not depend on what follows it. -/
theorem toOption_step_mark (r : Reading) (m : Mark) (rest : Rest) :
    (r.step (.mark m [])).toOption = (r.step (.mark m rest)).toOption := by
  obtain ⟨stack, expected, result⟩ := r
  cases expected with
  | top =>
    cases m with
    | openArray => exact (toOption_enter _ _ _ _).symm
    | closeArray | openObject | closeObject | comma | colon => rfl
  | itemOrEnd =>
    have hopen := (toOption_openMark ⟨stack, .itemOrEnd, result⟩ rest m).symm
    cases m with
    | closeArray => exact (toOption_closeArray _ _).symm
    | openArray | openObject | closeObject | comma | colon => exact hopen
  | value => exact (toOption_openMark _ _ _).symm
  | keyOrEnd =>
    cases m with
    | closeObject => exact (toOption_closeObject _ _).symm
    | openArray | closeArray | openObject | comma | colon => rfl
  | key | nothing => rfl
  | colon => cases m <;> rfl
  | commaOrEnd =>
    cases m with
    | comma => rcases stack with _ | ⟨_ | _, _⟩ <;> rfl
    | closeArray => exact (toOption_closeArray _ _).symm
    | closeObject => exact (toOption_closeObject _ _).symm
    | openArray | openObject | colon => rfl

/-- What a step makes of a lexeme does not depend on what follows it. -/
theorem toOption_step (r : Reading) (l : Lexeme) :
    (r.step l.bare).toOption = (r.step l).toOption := by
  cases l with
  | mark m rest => exact toOption_step_mark r m rest
  | text rest content =>
    have hvalue := toOption_readValue r (.text rest content)
    have hkey := toOption_readKey r (.text rest content)
    obtain ⟨stack, expected, result⟩ := r
    cases expected with
    | itemOrEnd | value => exact hvalue
    | keyOrEnd | key => exact hkey
    | top | colon | commaOrEnd | nothing => cases content <;> rfl
  | scalar rest content =>
    have hvalue := toOption_readValue r (.scalar rest content)
    obtain ⟨stack, expected, result⟩ := r
    cases expected with
    | itemOrEnd | value => exact hvalue
    | keyOrEnd | key => rfl
    | top | colon | commaOrEnd | nothing => cases content <;> rfl
  | stray rest =>
    obtain ⟨stack, expected, result⟩ := r
    cases expected <;> rfl

theorem toOption_run_cons (r : Reading) (l : Lexeme) (ls : List Lexeme) :
    (r.run (l :: ls)).toOption = (r.step l).toOption.bind fun r => (r.run ls).toOption := by
  rw [Reading.run]
  cases r.step l <;> rfl

/-- What a reader makes of lexemes does not depend on what follows them. -/
theorem toOption_run (r : Reading) (ls : List Lexeme) :
    (r.run (ls.map Lexeme.bare)).toOption = (r.run ls).toOption := by
  induction ls generalizing r with
  | nil => rfl
  | cons l ls ih =>
    rw [List.map_cons, toOption_run_cons, toOption_run_cons, toOption_step]
    exact Option.bind_congr fun r _ => ih r

/-! ## The lexemes of a text -/

/-- The lexemes of tokens up to the first one that is malformed. -/
def lexemes : List Token → List Lexeme
  | [] => []
  | t :: ts => t.lexeme :: if t.lexeme.isLast then [] else lexemes ts

theorem bareLexemes_blanks {gap : List Char} (h : Blanks gap) (cs : List Char) :
    bareLexemes (gap ++ cs) = bareLexemes cs := by
  induction gap with
  | nil => rfl
  | cons c gap ih =>
    rw [List.cons_append, bareLexemes, lexFrom, if_pos (h c (.head _))]
    exact ih fun d hd => h d (.tail _ hd)

theorem EndsNumber.nil : EndsNumber [] := fun _ hc => by cases hc

theorem EndsNumber.mark (m : Mark) (cs : List Char) : EndsNumber ((Token.mark m).chars ++ cs) := by
  intro c hc
  cases hc
  cases m <;> decide

/-- A blank ends a number. -/
theorem EndsNumber.blanks {gap rest : List Char} (hgap : Blanks gap) (hrest : EndsNumber rest) :
    EndsNumber (gap ++ rest) := by
  cases gap with
  | nil => exact hrest
  | cons c gap =>
    have hblank : ∀ d ∈ [' ', '\t', '\n', '\r'],
        d.isDigit = false ∧ d ≠ '.' ∧ d ≠ 'e' ∧ d ≠ 'E' := by simp
    intro d hd
    cases hd
    exact hblank c (isSpace_iff.1 (hgap c (.head _)))

/-- Nothing carries a number on where no scalar follows. -/
theorem endsNumber_of_spaced {ts : List Token} {cs : List Char}
    (h : Spaced ts cs) (hmark : ∀ t ∈ ts.head?, t.isMark = true) :
    EndsNumber cs := by
  cases h with
  | nil gap hgap =>
    have hends := EndsNumber.blanks hgap .nil
    rwa [List.append_nil] at hends
  | @cons t gap hgap =>
    refine .blanks hgap ?_
    cases t with
    | mark m => exact .mark m _
    | string s => cases hmark _ rfl
    | number n => cases hmark _ rfl
    | word w => cases hmark _ rfl

/-- A text is split into the lexemes of its tokens. -/
theorem bareLexemes_of_spaced {ts : List Token} {cs : List Char}
    (h : Spaced ts cs) (hchain : ts.IsChain Token.MayPrecede) :
    bareLexemes cs = lexemes ts := by
  induction h with
  | nil gap hgap =>
    have hblanks := bareLexemes_blanks hgap []
    rwa [List.append_nil] at hblanks
  | @cons t gap hgap ts cs hrest ih =>
    obtain ⟨hnext, hchain⟩ := List.isChain_cons.1 hchain
    have hends (ht : t.isMark = false) : EndsNumber cs :=
      endsNumber_of_spaced hrest fun b hb => (hnext b hb).scalar ht
    rw [bareLexemes_blanks hgap, splitsOff_token t hends, ih hchain, lexemes]

/-- A text is read as the tokens of the value that it denotes. -/
theorem toOption_readArray {cs : List Char} {v : Tree} (h : Denotes cs v) :
    (readArray cs).toOption =
      (Reading.initial.run (lexemes v.tokens)).toOption.bind fun r =>
        if r.expected = .nothing then some r.result else none := by
  rw [← bareLexemes_of_spaced h v.isChain_tokens, bareLexemes, toOption_run]
  rw [readArray, lex]
  cases Reading.initial.run (lexFrom 0 cs) with
  | error e => rfl
  | ok r =>
    by_cases hcomplete : r.expected = .nothing <;>
      simp [Except.toOption, hcomplete]

end WirePlan.Json
