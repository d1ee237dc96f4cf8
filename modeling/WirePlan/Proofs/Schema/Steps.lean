import WirePlan.Proofs.Keys
import WirePlan.Proofs.Outcome
import WirePlan.Schema.Checking

/-!
# One check at a time

What each check of a schema accepts and what it gives: names and tags that stand once
(`FieldChecker.distinct_eq_ok`), a size field, a struct type and prerequisites that are there, a
length format that may carry a length, all of these for a field (`FieldChecker.field_eq_ok`), and in
the end the whole schema (`Schema.ofExpanded_eq_ok`). Proofs about checked schemas go by these
rules.
-/

namespace WirePlan

theorem Format.lookup_eq_ok {tag : String} {format : Format} :
    lookup tag = .ok format ↔ ofTag? tag = some format := by
  unfold lookup
  cases ofTag? tag <;> simp

theorem IntFormat.lookupLengthPrefix_eq_ok {tag : String} {p : IntFormat} :
    lookupLengthPrefix tag = .ok p ↔ ofTag? tag = some p ∧ p.isLengthPrefix = true := by
  unfold lookupLengthPrefix
  cases ofTag? tag with
  | none => simp
  | some q =>
    rw [ite_eq_ok]
    constructor
    · rintro ⟨hq, rfl⟩
      exact ⟨rfl, hq⟩
    · rintro ⟨heq, hp⟩
      cases heq
      exact ⟨hp, rfl⟩

namespace FieldChecker

variable {c : FieldChecker} {siblings : List ExpandedField} {f : ExpandedField}

/-- Tags stand once and avoid those before exactly when the tags behind the first one do and avoid
it too. -/
theorem distinctTags_cons {tags : List UInt8} {f : ExpandedField} {rest : List ExpandedField}
    {t : UInt8} (htag : f.tag? = some t) (hfresh : t ∉ tags) :
    (((f :: rest).map (·.tag?)).Nodup ∧
        ∀ g ∈ f :: rest, ∃ s, g.tag? = some s ∧ s ∉ tags) ↔
      (rest.map (·.tag?)).Nodup ∧ ∀ g ∈ rest, ∃ s, g.tag? = some s ∧ s ∉ t :: tags := by
  rw [List.map_cons, List.nodup_cons, List.forall_mem_cons]
  constructor
  · rintro ⟨⟨hother, hnodup⟩, -, hrest⟩
    refine ⟨hnodup, fun g hg => ?_⟩
    obtain ⟨s, hs, hsfresh⟩ := hrest g hg
    refine ⟨s, hs, fun hmem => ?_⟩
    rcases List.mem_cons.1 hmem with rfl | hmem
    · exact hother (htag ▸ hs ▸ List.mem_map_of_mem hg)
    · exact hsfresh hmem
  · rintro ⟨hnodup, hrest⟩
    refine ⟨⟨fun hmem => ?_, hnodup⟩, ⟨t, htag, hfresh⟩, fun g hg => ?_⟩
    · obtain ⟨g, hg, hsame⟩ := List.mem_map.1 hmem
      obtain ⟨s, hs, hsfresh⟩ := hrest g hg
      cases hs.symm.trans (hsame.trans htag)
      exact hsfresh (.head _)
    · obtain ⟨s, hs, hsfresh⟩ := hrest g hg
      exact ⟨s, hs, fun hmem => hsfresh (.tail _ hmem)⟩

/-- The names of a list stand once, and so do its tags where fields carry them; none is one of those
before. -/
theorem distinct_eq_ok {names : List String} {tags : List UInt8} {list : List ExpandedField}
    {u : Unit} :
    c.distinct names tags list = .ok u ↔
      ((list.map (·.name)).Nodup ∧ ∀ f ∈ list, f.name ∉ names) ∧
      (c.isTagged = true → (list.map (·.tag?)).Nodup ∧
        ∀ f ∈ list, ∃ t, f.tag? = some t ∧ t ∉ tags) := by
  induction list generalizing names tags with
  | nil => simp [distinct]
  | cons f rest ih =>
    rw [nodup_keys_cons, distinct]
    by_cases hfresh : f.name ∈ names
    · simp [hfresh]
    rw [if_neg hfresh]
    by_cases htagged : c.isTagged = true
    swap
    · rw [if_neg htagged, ih]
      simp [htagged, hfresh]
    rw [if_pos htagged]
    cases htag : f.tag? with
    | none => simp [htagged, htag]
    | some t =>
      dsimp only
      by_cases hused : t ∈ tags
      · simp [htagged, hused, htag]
      rw [if_neg hused, ih]
      simp only [htagged, true_implies, distinctTags_cons htag hused, hfresh, not_false_eq_true,
        true_and]

/-- What counts the elements of an array is the sibling found under the name of its size field. -/
theorem sizeField_eq_ok {size : String} :
    c.sizeField siblings f = .ok size ↔ f.sizeField? = some size ∧
      ∃ g format, siblings.find? (fun s => s.name = size ∧ s.name ≠ f.name) = some g ∧
        Format.ofTag? g.format = some format ∧ format.canCount = true := by
  unfold sizeField
  split
  · next hnone => simp [hnone]
  · next declared hsome =>
    dsimp only
    split
    · next format hfound =>
      obtain ⟨g, hg, hformat⟩ := Option.bind_eq_some_iff.1 hfound
      rw [ite_eq_ok]
      constructor
      · rintro ⟨hcounts, rfl⟩
        exact ⟨hsome, g, format, hg, hformat, hcounts⟩
      · rintro ⟨hsize, g', format', hg', hformat', hcounts⟩
        cases hsome.symm.trans hsize
        cases hg.symm.trans hg'
        cases hformat.symm.trans hformat'
        exact ⟨hcounts, rfl⟩
    · next hnone =>
      constructor
      · intro h
        cases h
      · rintro ⟨hsize, g, format, hg, hformat, -⟩
        cases hsome.symm.trans hsize
        rw [hg, Option.bind_some, hformat] at hnone
        cases hnone

/-- The struct of a field is a declared one. -/
theorem structType_eq_ok {t : String} :
    c.structType f = .ok t ↔ f.structType? = some t ∧ t ∈ c.structNames := by
  unfold structType
  split
  · next hnone => simp [hnone]
  · next declared hsome =>
    rw [ite_eq_ok, hsome]
    constructor
    · rintro ⟨hmem, rfl⟩
      exact ⟨rfl, hmem⟩
    · rintro ⟨heq, hmem⟩
      cases heq
      exact ⟨hmem, rfl⟩

/-- A field has a size field when it is an array, and a struct when it is struct-shaped. -/
theorem links_eq_ok {format : Format} {size? type? : Option String} :
    c.links siblings f format = .ok (size?, type?) ↔
      (match format.isArray with
        | true => ∃ size, c.sizeField siblings f = .ok size ∧ size? = some size
        | false => size? = none) ∧
      match format.isStructShaped with
        | true => ∃ t, c.structType f = .ok t ∧ type? = some t
        | false => type? = none := by
  unfold links
  cases format.isArray <;> cases format.isStructShaped <;>
    simp only [bind_eq_ok, map_eq_ok, pure_eq_ok, Prod.mk.injEq, reduceIte, Bool.false_eq_true]
  · constructor
    · rintro ⟨_, rfl, _, rfl, rfl, rfl⟩
      exact ⟨rfl, rfl⟩
    · rintro ⟨rfl, rfl⟩
      exact ⟨none, rfl, none, rfl, rfl, rfl⟩
  · constructor
    · rintro ⟨_, rfl, _, ⟨t, ht, rfl⟩, rfl, rfl⟩
      exact ⟨rfl, t, ht, rfl⟩
    · rintro ⟨rfl, t, ht, rfl⟩
      exact ⟨none, rfl, some t, ⟨t, ht, rfl⟩, rfl, rfl⟩
  · constructor
    · rintro ⟨_, ⟨size, hsize, rfl⟩, _, rfl, rfl, rfl⟩
      exact ⟨⟨size, hsize, rfl⟩, rfl⟩
    · rintro ⟨⟨size, hsize, rfl⟩, rfl⟩
      exact ⟨some size, ⟨size, hsize, rfl⟩, none, rfl, rfl, rfl⟩
  · constructor
    · rintro ⟨_, ⟨size, hsize, rfl⟩, _, ⟨t, ht, rfl⟩, rfl, rfl⟩
      exact ⟨⟨size, hsize, rfl⟩, t, ht, rfl⟩
    · rintro ⟨⟨size, hsize, rfl⟩, t, ht, rfl⟩
      exact ⟨some size, ⟨size, hsize, rfl⟩, some t, ⟨t, ht, rfl⟩, rfl, rfl⟩

/-- Every prerequisite reads a field of the list. -/
theorem prerequisites_eq_ok {u : Unit} :
    c.prerequisites siblings f = .ok u ↔
      ∀ p ∈ f.prerequisites, ∃ g ∈ siblings, g.name = p.sibling := by
  unfold prerequisites
  split
  · next p hp =>
    have hmissing := List.find?_some hp
    simp only [Bool.not_eq_true', List.any_eq_false, decide_eq_true_eq] at hmissing
    constructor
    · intro h
      cases h
    · intro h
      obtain ⟨g, hg, hname⟩ := h p (List.mem_of_find?_eq_some hp)
      exact absurd hname (hmissing g hg)
  · next hnone =>
    simp only [true_iff]
    intro p hp
    simpa using List.find?_eq_none.1 hnone p hp

/-- A string carries its length in the format that it says, if it may carry it, or else in that of
the options. -/
theorem lengthPrefix?_eq_ok {format : Format} {p? : Option IntFormat} :
    c.lengthPrefix? f format = .ok p? ↔
      match format.hasLengthPrefix with
        | true =>
          (∀ tag, f.lengthPrefix? = some tag →
            ∃ p, IntFormat.ofTag? tag = some p ∧ p.isLengthPrefix = true) ∧
          p? = some ((f.lengthPrefix?.bind IntFormat.ofTag?).getD c.options.lengthPrefix)
        | false => p? = none := by
  unfold lengthPrefix?
  cases format.hasLengthPrefix with
  | false => simp [@eq_comm _ none]
  | true =>
    rw [if_pos rfl]
    cases htag : f.lengthPrefix? with
    | none => simp [@eq_comm _ (some _)]
    | some tag =>
      dsimp only
      split
      · next p hp =>
        obtain ⟨hp, hcarries⟩ := IntFormat.lookupLengthPrefix_eq_ok.1 hp
        simp [hp, hcarries, @eq_comm _ (some p)]
      · next e he =>
        constructor
        · intro h
          cases h
        · rintro ⟨h, -⟩
          obtain ⟨p, hp⟩ := h tag rfl
          rw [IntFormat.lookupLengthPrefix_eq_ok.2 hp] at he
          cases he

/-- **A field passes** when its format is known and suits the list, and when what it names is
there. -/
theorem field_eq_ok {typed : Field} :
    c.field siblings f = .ok typed ↔
      ∃ format size? type? prefix?, Format.ofTag? f.format = some format ∧
        (format = .refStructArray → c.options.variant ≠ .tlv) ∧
        (c.ofStruct = true → f.prerequisites = []) ∧
        c.links siblings f format = .ok (size?, type?) ∧
        c.prerequisites siblings f = .ok () ∧ c.lengthPrefix? f format = .ok prefix? ∧
        typed = {
          name := f.name, tag? := f.tag?, mandatory := f.mandatory, format, sizeField? := size?
          structType? := type?, prerequisites := f.prerequisites, origin? := f.origin?
          lengthPrefix? := prefix? } := by
  unfold field
  dsimp only
  cases hformat : Format.lookup f.format with
  | error e =>
    constructor
    · intro h
      obtain ⟨_, hthrow, -⟩ := bind_eq_ok.1 h
      cases hthrow
    · rintro ⟨format, _, _, _, hknown, -⟩
      rw [Format.lookup_eq_ok.2 hknown] at hformat
      cases hformat
  | ok format =>
    dsimp only
    rw [pure_bind]
    constructor
    · intro h
      split at h
      · obtain ⟨_, hthrow, -⟩ := bind_eq_ok.1 h
        cases hthrow
      · next hdirect =>
        split at h
        · obtain ⟨_, hthrow, -⟩ := bind_eq_ok.1 h
          cases hthrow
        · next hungated =>
          obtain ⟨⟨size?, type?⟩, hlinks, h⟩ := bind_eq_ok.1 h
          obtain ⟨_, hprerequisites, h⟩ := bind_eq_ok.1 h
          obtain ⟨prefix?, hlength, h⟩ := bind_eq_ok.1 h
          cases pure_eq_ok.1 h
          exact ⟨format, size?, type?, prefix?, Format.lookup_eq_ok.1 hformat,
            fun hindirect htlv => hdirect ⟨hindirect, htlv⟩,
            fun hof => not_not.1 fun hne => hungated ⟨hof, hne⟩, hlinks, hprerequisites, hlength,
            rfl⟩
    · rintro ⟨_, size?, type?, prefix?, hknown, hdirect, hungated, hlinks, hprerequisites, hlength,
        rfl⟩
      cases hformat.symm.trans (Format.lookup_eq_ok.2 hknown)
      rw [if_neg fun h => hdirect h.1 h.2, if_neg fun h => h.2 (hungated h.1)]
      exact bind_eq_ok.2 ⟨_, hlinks, bind_eq_ok.2 ⟨_, hprerequisites, bind_eq_ok.2 ⟨_, hlength,
        rfl⟩⟩⟩

/-- A list passes when its names and tags stand once and every field passes. -/
theorem fields_eq_ok {list : List ExpandedField} {typed : List Field} :
    c.fields list = .ok typed ↔ c.distinct [] [] list = .ok () ∧
      List.Forall₂ (fun f t => c.field list f = .ok t) list typed := by
  rw [fields, bind_eq_ok, ← mapM_eq_ok]
  constructor
  · rintro ⟨_, hdistinct, h⟩
    exact ⟨hdistinct, h⟩
  · rintro ⟨hdistinct, h⟩
    exact ⟨(), hdistinct, h⟩

end FieldChecker

namespace Expanded

/-- Names stand once, and none is one of those before. -/
theorem distinctNames_eq_ok {kind : DeclaredKind} {place : Place} {seen names : List String}
    {u : Unit} :
    distinctNames kind place seen names = .ok u ↔ names.Nodup ∧ ∀ n ∈ names, n ∉ seen := by
  induction names generalizing seen with
  | nil => simp [distinctNames]
  | cons n rest ih =>
    rw [distinctNames, List.nodup_cons, List.forall_mem_cons]
    by_cases hfresh : n ∈ seen
    · simp [hfresh]
    rw [if_neg hfresh, ih]
    constructor
    · rintro ⟨hnodup, hrest⟩
      exact ⟨⟨fun hmem => hrest n hmem (.head _), hnodup⟩, hfresh,
        fun k hk hmem => hrest k hk (.tail _ hmem)⟩
    · rintro ⟨⟨hn, hnodup⟩, -, hrest⟩
      refine ⟨hnodup, fun k hk hmem => ?_⟩
      rcases List.mem_cons.1 hmem with rfl | hmem
      · exact hn hk
      · exact hrest k hk hmem

end Expanded

/-- **A schema passes** when its parts do, one after the other. -/
theorem Schema.ofExpanded_eq_ok {e : Expanded} {options : Options} {schema : Schema} :
    ofExpanded e options = .ok schema ↔ ∃ service structs messages,
      Expanded.checkOptions options = .ok () ∧ e.service options.variant = .ok service ∧
      Expanded.distinctNames .struct (.service service) [] (e.structs.map (·.name)) = .ok () ∧
      e.structs.mapM (e.checkStruct options) = .ok structs ∧
      e.checkMessages options service [] e.messages = .ok messages ∧
      schema = withUsage {
        service, variant := options.variant, client? := e.names.client?
        messageIds? := e.names.messageIds?, messages, structs } := by
  constructor
  · intro h
    obtain ⟨_, hoptions, h⟩ := bind_eq_ok.1 h
    obtain ⟨service, hservice, h⟩ := bind_eq_ok.1 h
    obtain ⟨_, hnames, h⟩ := bind_eq_ok.1 h
    obtain ⟨structs, hstructs, h⟩ := bind_eq_ok.1 h
    obtain ⟨messages, hmessages, h⟩ := bind_eq_ok.1 h
    exact ⟨service, structs, messages, hoptions, hservice, hnames, hstructs, hmessages,
      (pure_eq_ok.1 h).symm⟩
  · rintro ⟨service, structs, messages, hoptions, hservice, hnames, hstructs, hmessages, rfl⟩
    exact bind_eq_ok.2 ⟨_, hoptions, bind_eq_ok.2 ⟨_, hservice, bind_eq_ok.2 ⟨_, hnames,
      bind_eq_ok.2 ⟨_, hstructs, bind_eq_ok.2 ⟨_, hmessages, rfl⟩⟩⟩⟩⟩

end WirePlan
