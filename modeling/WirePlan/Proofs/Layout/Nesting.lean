import WirePlan.Proofs.Layout.Cycles
import WirePlan.Proofs.Layout.LaidOut
import WirePlan.Proofs.Schema.Linked

/-!
# Structs that embed themselves

A session sizes the structs that a struct embeds before it finishes the struct itself, so a finished
struct embeds finished ones only and is founded (`Nested.founded`). As the structs under way are all
different and declared, the depth allowed for the recursion is never used up (`Nested.room`), and as
every field of a checked schema names what its format calls for, only one thing can go wrong: on its
way from a struct into the first one within it that is not founded, and so on, a session comes to a
struct that is under way (`Schema.Recurs`). By induction on the depth, sizing a struct succeeds or
ends so (`ends_sizeOfStruct`). Where nothing was under way before, the struct found embeds itself
(`Schema.Recurs.transGen`); in any case the one asked for is not founded
(`Schema.Recurs.not_founded`).
-/

namespace WirePlan

/-- A struct has a member of another struct, or an array of it as a member. -/
def Schema.Embeds (schema : Schema) (a b : String) : Prop :=
  ∃ t ∈ schema.structs, t.name = a ∧ ∃ f ∈ t.members, f.structType? = some b

/-- The error names a struct that embeds itself, directly or through others. -/
def Schema.Recursive (schema : Schema) (error : SchemaError) : Prop :=
  ∃ name, error = .recursiveStruct name ∧ Relation.TransGen schema.Embeds name name

namespace Schema

/-- Whatever the struct with a name embeds can be laid out before it. -/
def Founded (schema : Schema) (name : String) : Prop := Acc (fun b a => schema.Embeds a b) name

/-- The structs that fields are made of are founded. -/
def AllFounded (schema : Schema) (fields : List Field) : Prop :=
  ∀ f ∈ fields, ∀ t, f.structType? = some t → schema.Founded t

/-- The way from a struct into the first one within it that is not founded, in wire order, and so on
to one that is under way. `trail` are the structs under way in the end. -/
inductive Recurs (schema : Schema) :
    (underWay : List String) → (name : String) → (trail : List String) → (found : String) → Prop
    where
  | found {underWay : List String} {name : String} (h : name ∈ underWay) :
      Recurs schema underWay name underWay name
  | member {underWay trail : List String} {name t found : String} {s : Struct}
      {before rest : List Field} {f : Field} (hfree : name ∉ underWay)
      (hs : schema.struct? name = some s)
      (horder : wireOrder s.members (.struct name) = .ok (before ++ f :: rest))
      (hbefore : schema.AllFounded before) (htype : f.structType? = some t)
      (hrecurs : Recurs schema (name :: underWay) t trail found) :
      Recurs schema underWay name trail found

variable {schema : Schema} {underWay trail : List String} {name found : String}

/-- A struct embeds what its members are made of. -/
theorem embeds_of_wireOrder {s : Struct} {place : Place} {ordered : List Field} {f : Field}
    {t : String} (hs : schema.struct? name = some s)
    (horder : wireOrder s.members place = .ok ordered) (hf : f ∈ ordered)
    (htype : f.structType? = some t) : schema.Embeds name t :=
  ⟨s, List.mem_of_find?_eq_some hs, by simpa using List.find?_some hs, f,
    WireOrder.mem_of_wireOrder horder hf, htype⟩

/-- Where all structs under way lead to the one asked for, the one found embeds itself. -/
theorem Recurs.transGen (h : schema.Recurs underWay name trail found)
    (hleads : ∀ u ∈ underWay, Relation.TransGen schema.Embeds u name) :
    Relation.TransGen schema.Embeds found found := by
  induction h with
  | found h => exact hleads _ h
  | member hfree hs horder hbefore htype _ ih =>
    have hembeds := embeds_of_wireOrder hs horder List.mem_append_cons_self htype
    exact ih (List.forall_mem_cons.2 ⟨.single hembeds, fun u hu => (hleads u hu).tail hembeds⟩)

/-- Where no struct under way is founded, but for those that lead to the one asked for, this is not
founded either. -/
theorem Recurs.not_founded_of_leads (h : schema.Recurs underWay name trail found)
    (hleads : ∀ u ∈ underWay, ¬ schema.Founded u ∨ Relation.TransGen schema.Embeds u name) :
    ¬ schema.Founded name := by
  induction h with
  | found h =>
    rcases hleads _ h with hopen | hcycle
    · exact hopen
    · exact fun hfounded => not_transGen_of_acc hfounded hcycle
  | member hfree hs horder hbefore htype _ ih =>
    have hembeds := embeds_of_wireOrder hs horder List.mem_append_cons_self htype
    have hopen := ih (List.forall_mem_cons.2
      ⟨.inr (.single hembeds), fun u hu => (hleads u hu).imp_right (·.tail hembeds)⟩)
    exact fun hfounded => hopen (hfounded.inv hembeds)

theorem Recurs.not_founded (h : schema.Recurs underWay name trail found)
    (hopen : ∀ u ∈ underWay, ¬ schema.Founded u) : ¬ schema.Founded name :=
  h.not_founded_of_leads fun u hu => .inl (hopen u hu)

/-- No struct under way in the end is founded. -/
theorem Recurs.not_founded_of_mem (h : schema.Recurs underWay name trail found)
    (hopen : ∀ u ∈ underWay, ¬ schema.Founded u) : ∀ u ∈ trail, ¬ schema.Founded u := by
  induction h with
  | found _ => exact hopen
  | member hfree hs horder hbefore htype hrecurs ih =>
    have hname := (Recurs.member hfree hs horder hbefore htype hrecurs).not_founded hopen
    exact ih (List.forall_mem_cons.2 ⟨hname, hopen⟩)

end Schema

namespace LayoutProgress

variable {schema : Schema} {depth : Nat} {p q : LayoutProgress}

/-- A session for a schema in which so many structs more may be under way at once. -/
structure Nested (schema : Schema) (depth : Nat) (p : LayoutProgress) : Prop where
  sound : p.Sound schema
  founded : ∀ name layout, p.struct? name = some layout → schema.Founded name
  nodup : p.underWay.Nodup
  declared : p.underWay ⊆ schema.structs.map (·.name)
  room : schema.nesting ≤ p.underWay.length + depth

/-- A session that has done nothing. -/
theorem nested_empty (schema : Schema) : ({} : LayoutProgress).Nested schema schema.nesting where
  sound := sound_empty schema
  founded _ _ h := nomatch h
  nodup := .nil
  declared := List.nil_subset _
  room := Nat.le_add_left _ _

/-- There is room for a further struct. -/
theorem Nested.depth_ne_zero (h : p.Nested schema depth) : depth ≠ 0 := by
  have hle := (h.nodup.subperm h.declared).length_le
  have hroom := h.room
  rw [List.length_map] at hle
  unfold Schema.nesting at hroom
  omega

/-- A declared struct that is not under way can be put under way. -/
theorem Nested.begin (h : p.Nested schema (depth + 1)) {name : String}
    (hname : name ∈ schema.structs.map (·.name)) (hfree : name ∉ p.underWay) :
    Nested schema depth { p with underWay := name :: p.underWay } where
  sound := h.sound
  founded := h.founded
  nodup := List.nodup_cons.2 ⟨hfree, h.nodup⟩
  declared := List.cons_subset.2 ⟨hname, h.declared⟩
  room := by
    have hroom := h.room
    simp only [List.length_cons]
    omega

/-- There is room for every struct again, whatever is under way. -/
theorem Nested.relax (h : p.Nested schema depth) : p.Nested schema schema.nesting where
  sound := h.sound
  founded := h.founded
  nodup := h.nodup
  declared := h.declared
  room := Nat.le_add_left _ _

/-- A session between two requests. Under way are the structs that failed requests have left, none
of which is founded. -/
structure Idle (schema : Schema) (left : List String) (p : LayoutProgress) : Prop where
  nested : p.Nested schema schema.nesting
  underWay : p.underWay = left
  unfounded : ∀ u ∈ left, ¬ schema.Founded u

/-- A session that has done nothing. -/
theorem idle_empty (schema : Schema) : ({} : LayoutProgress).Idle schema [] :=
  ⟨nested_empty schema, rfl, fun _ hu => nomatch hu⟩

/-- What is under way is so after a step that succeeds. -/
theorem Idle.of_grown {left : List String} (h : p.Idle schema left)
    (hnested : q.Nested schema schema.nesting) (hgrown : p.Grown q) : q.Idle schema left :=
  ⟨hnested, hgrown.underWay.trans h.underWay, h.unfounded⟩

/-- A step that succeeds leaves no further struct under way. -/
theorem Idle.ends {left : List String} (hp : p.Idle schema left) {α : Type} {step : LayoutM α}
    {suits : StructLayouts → α → Prop} {expected : SchemaError → LayoutProgress → Prop}
    (hlays : step.Lays schema suits)
    (hends : step.Ends p (fun _ p' => p'.Nested schema schema.nesting) expected) :
    step.Ends p (fun _ p' => p'.Idle schema left) expected where
  yields a p' h := hp.of_grown (hends.yields a p' h) (hlays h hp.nested.sound).2.1
  fails := hends.fails

end LayoutProgress

/-- The error of a session that has come to a struct that is under way, and the session after it. -/
def Schema.Caught (schema : Schema) (underWay : List String) (name : String) (error : SchemaError)
    (p : LayoutProgress) : Prop :=
  p.Nested schema schema.nesting ∧
    ∃ found, error = .recursiveStruct found ∧ schema.Recurs underWay name p.underWay found

/-- A session has come to a struct that is under way from the first of some fields that is made of
one that is not founded. -/
def Schema.CaughtAmong (schema : Schema) (underWay : List String) (fields : List Field)
    (error : SchemaError) (p : LayoutProgress) : Prop :=
  ∃ before f rest t, fields = before ++ f :: rest ∧ schema.AllFounded before ∧
    f.structType? = some t ∧ schema.Caught underWay t error p

/-- With nothing under way before, the error names a struct that embeds itself. -/
theorem Schema.Caught.recursive {schema : Schema} {name : String} {error : SchemaError}
    {p : LayoutProgress} (h : schema.Caught [] name error p) : schema.Recursive error := by
  obtain ⟨-, found, rfl, hrecurs⟩ := h
  exact ⟨found, rfl, hrecurs.transGen fun _ hu => nomatch hu⟩

/-- Asked for a declared struct, the sizes keep a session nested or come to one under way. -/
def StructSizes.Detects (schema : Schema) (depth : Nat) (sizes : StructSizes Id) : Prop :=
  ∀ (name user : String) (p : LayoutProgress), p.Nested schema depth →
    name ∈ schema.structs.map (·.name) →
    (sizes name user).Ends p (fun _ p' => p'.Nested schema depth)
      (schema.Caught p.underWay name)

/-- The struct that a field of some size names is laid out. -/
theorem SizeFits.exists_struct {structs : StructLayouts} {f : Field} {size : WireSize}
    (h : SizeFits structs f size) {structNames : List String} {siblings : List Field}
    (hlinked : f.Linked structNames siblings) {t : String} (ht : f.structType? = some t) :
    ∃ layout, structs t = some layout := by
  have hshaped : f.format.isStructShaped = true := by
    cases hshaped : f.format.isStructShaped with
    | true => rfl
    | false => cases (hlinked.structless hshaped).symm.trans ht
  cases h with
  | scalar hformat _ => cases hf : f.format <;> simp_all [Format.scalar?, Format.isStructShaped]
  | string hformat | array hformat _ _ | strings hformat _ =>
    rw [hformat] at hshaped
    cases hshaped
  | struct _ htype hstruct | structArray _ _ htype hstruct | slots _ _ htype hstruct =>
    cases htype.symm.trans ht
    exact ⟨_, hstruct⟩

/-- The structs that laid out fields are made of are laid out. -/
theorem LaidOut.exists_struct {structs : StructLayouts} {header : Nat} {declared : List Field}
    {place : Place} {layouts : List PlacedField} {endOffset : Offset}
    (h : LaidOut structs header declared place layouts endOffset) {structNames : List String}
    (hlinked : ∀ f ∈ declared, f.Linked structNames declared) {f : Field} (hf : f ∈ declared)
    {t : String} (ht : f.structType? = some t) : ∃ layout, structs t = some layout := by
  have hmem := (WireOrder.perm_of_wireOrder h.order).mem_iff.2 hf
  obtain ⟨g, hg, rfl⟩ := List.mem_map.1 hmem
  exact (h.sized g hg).exists_struct (hlinked g.toField hf) ht

section Fields

variable {schema : Schema} {depth : Nat} {sizes : StructSizes Id} {siblings : List Field}
  {placed : List String} {place : Place} {p : LayoutProgress}

theorem requirePlaced_of_mem {f : Field} {count : String} (hcount : count ∈ placed) :
    (requirePlaced f count placed place : LayoutM Unit) = pure () := by
  rw [requirePlaced, if_pos hcount]

/-- The size of a linked field behind all it depends on is found as that of its struct is. -/
theorem ends_fieldSize {f : Field} (hlinked : f.Linked (schema.structs.map (·.name)) siblings)
    (hplaced : ∀ d ∈ f.dependencies, d ∈ placed) (hp : p.Nested schema depth) (place : Place)
    {expected : SchemaError → LayoutProgress → Prop}
    (hsized : ∀ t, f.structType? = some t →
      (sizes t f.name).Ends p (fun _ p' => p'.Nested schema depth) expected) :
    (fieldSize sizes placed place f).Ends p (fun _ p' => p'.Nested schema depth) expected := by
  have hcounted : f.format.isArray = true →
      ∃ count, f.sizeField? = some count ∧ count ∈ placed := by
    intro harray
    obtain ⟨g, -, hsize, -⟩ := hlinked.counter harray
    exact ⟨g.name, hsize, hplaced _ (List.mem_append_left _ (Option.mem_toList.2 hsize))⟩
  unfold fieldSize
  cases hformat : f.format with
  | string => exact LayoutT.ends_pure hp
  | int i =>
    rw [hlinked.uncounted (by rw [hformat]; rfl), hlinked.structless (by rw [hformat]; rfl)]
    cases i <;> exact LayoutT.ends_pure hp
  | uuid | ipv4 | ipv6 | refIpv4 | refIpv6 =>
    rw [hlinked.uncounted (by rw [hformat]; rfl), hlinked.structless (by rw [hformat]; rfl)]
    exact LayoutT.ends_pure hp
  | array e =>
    obtain ⟨count, hsize, hcount⟩ := hcounted (by rw [hformat]; rfl)
    rw [hsize, hlinked.structless (by rw [hformat]; rfl)]
    dsimp only
    rw [requirePlaced_of_mem hcount, pure_bind]
    exact LayoutT.ends_pure hp
  | struct | refStruct =>
    obtain ⟨t, -, ht⟩ := hlinked.struct (by rw [hformat]; rfl)
    rw [hlinked.uncounted (by rw [hformat]; rfl), ht]
    exact hsized t ht
  | structArray =>
    obtain ⟨count, hsize, hcount⟩ := hcounted (by rw [hformat]; rfl)
    obtain ⟨t, -, ht⟩ := hlinked.struct (by rw [hformat]; rfl)
    rw [hsize, ht]
    dsimp only
    rw [requirePlaced_of_mem hcount, pure_bind]
    exact LayoutT.ends_bind (hsized t ht) fun _ _ _ hq => LayoutT.ends_pure hq
  | refStructArray =>
    obtain ⟨count, hsize, hcount⟩ := hcounted (by rw [hformat]; rfl)
    obtain ⟨t, -, ht⟩ := hlinked.struct (by rw [hformat]; rfl)
    rw [hsize, ht]
    dsimp only
    rw [requirePlaced_of_mem hcount, pure_bind]
    exact LayoutT.ends_bind (LayoutT.ends_discard (hsized t ht))
      fun _ _ _ hq => LayoutT.ends_pure hq

/-- The sizes of linked fields in order are found, or the session comes to a struct under way. -/
theorem ends_sizeFields (hgood : sizes.Good schema) (hsizes : sizes.Detects schema depth)
    {fields : List Field} (hinOrder : Field.InOrder placed fields)
    (hlinked : ∀ f ∈ fields, f.Linked (schema.structs.map (·.name)) siblings)
    (hp : p.Nested schema depth) :
    (sizeFields sizes place placed fields).Ends p (fun _ p' => p'.Nested schema depth)
      (schema.CaughtAmong p.underWay fields) := by
  induction fields generalizing placed p with
  | nil => exact LayoutT.ends_pure hp
  | cons f rest ih =>
    obtain ⟨-, hplaced, hrest⟩ := hinOrder
    have hlinkedFirst := hlinked f (.head _)
    have hfirst : ∀ t, f.structType? = some t → (sizes t f.name).Ends p
        (fun _ p' => p'.Nested schema depth) (schema.CaughtAmong p.underWay (f :: rest)) := by
      intro t ht
      refine (hsizes t f.name p hp (hlinkedFirst.mem_of_structType ht)).mono fun _ _ hcaught => ?_
      exact ⟨[], f, rest, t, rfl, fun _ hg => (List.not_mem_nil hg).elim, ht, hcaught⟩
    refine LayoutT.ends_bind (ends_fieldSize hlinkedFirst hplaced hp place hfirst)
      fun size q hsize hq => ?_
    obtain ⟨-, hgrown, hfits⟩ := lays_fieldSize hgood placed place f hsize hp.sound
    have hfounded : ∀ t, f.structType? = some t → schema.Founded t := by
      intro t ht
      obtain ⟨layout, hlayout⟩ := hfits.exists_struct hlinkedFirst ht
      exact hq.founded t layout hlayout
    refine LayoutT.ends_bind ((ih hrest (fun g hg => hlinked g (.tail _ hg)) hq).mono ?_)
      fun _ _ _ hr => LayoutT.ends_pure hr
    rintro error p' ⟨before, g, others, t, rfl, hbefore, ht, hcaught⟩
    exact ⟨f :: before, g, others, t, rfl, List.forall_mem_cons.2 ⟨hfounded, hbefore⟩, ht,
      hgrown.underWay ▸ hcaught⟩

/-- Linked fields in order are laid out, or the session comes to a struct under way. -/
theorem ends_layoutList (hgood : sizes.Good schema) (hsizes : sizes.Detects schema depth)
    {fields : List Field} (hinOrder : Field.InOrder [] fields)
    (hlinked : ∀ f ∈ fields, f.Linked (schema.structs.map (·.name)) siblings)
    (hp : p.Nested schema depth) (header : Nat) (place : Place) :
    (layoutList sizes fields header place).Ends p (fun _ p' => p'.Nested schema depth)
      (schema.CaughtAmong p.underWay fields) := by
  rw [layoutList_eq, ← bind_pure_comp]
  exact LayoutT.ends_bind (ends_sizeFields hgood hsizes hinOrder hlinked hp)
    fun _ _ _ hq => LayoutT.ends_pure hq

end Fields

section Schema

variable {schema : Schema} (hchecked : schema.Checked) (hlinked : schema.Linked)

include hchecked hlinked

/-- Members depend on what counts their elements only, which depends on nothing. -/
theorem Schema.acyclic_members {t : Struct} (ht : t ∈ schema.structs) :
    Acyclic (Field.DependsOn t.members) := by
  have hsize : ∀ f ∈ t.members, ∀ d ∈ f.dependencies, f.sizeField? = some d := by
    intro f hf d hd
    rw [Field.dependencies, hchecked.ungated t ht f hf, List.map_nil, List.append_nil] at hd
    exact Option.mem_toList.1 hd
  refine acyclic_of_flat ?_
  rintro _ _ c ⟨f, hf, rfl, hb⟩ ⟨g, hg, rfl, hc⟩
  obtain ⟨k, hk, -⟩ := (hlinked.members t ht f hf).int_of_sizeField (hchecked.members t ht).nodup hg
    (hsize f hf _ hb)
  have huncounted := (hlinked.members t ht g hg).uncounted (by rw [hk]; rfl)
  cases huncounted.symm.trans (hsize g hg c hc)

/-- **The members of a struct can always be ordered.** -/
theorem Schema.exists_wireOrder_members {t : Struct} (ht : t ∈ schema.structs) (place : Place) :
    ∃ ordered, wireOrder t.members place = .ok ordered :=
  (WireOrder.exists_wireOrder_iff (hchecked.members t ht).nodup
    fun f hf _ hd => (hlinked.members t ht f hf).exists_of_dependency hd).2
    (acyclic_members hchecked hlinked ht)

namespace LayoutProgress

omit hchecked in
/-- A struct whose members are laid out is finished. It embeds finished structs only. -/
theorem Nested.finish {depth : Nat} {p q : LayoutProgress} {s : Struct} (hs : s ∈ schema.structs)
    {members : List PlacedField} {endOffset : Offset} (hp : p.Nested schema (depth + 1))
    (hnew : p.struct? s.name = none) (hfree : s.name ∉ p.underWay) (hq : q.Nested schema depth)
    (hgrown : Grown { p with underWay := s.name :: p.underWay } q)
    (hlaid : LaidOut q.struct? 0 s.members (.struct s.name) members endOffset) :
    Nested schema (depth + 1)
      ⟨⟨s.name, members, endOffset, .ofStruct s.name endOffset, s.usage⟩ :: q.structs,
        q.underWay.tail⟩ := by
  obtain ⟨hsound, hgrown', -⟩ := sound_finish hnew hfree hgrown hq.sound
    (Schema.struct?_of_mem hlinked.nodup hs) hlaid
  have hunderWay := hgrown'.underWay
  constructor
  · exact hsound
  · intro name layout hlayout
    rw [struct?_cons _ _ _ q.underWay] at hlayout
    split at hlayout
    · next hname =>
      dsimp only at hname
      subst hname
      refine Acc.intro _ ?_
      rintro b ⟨t, ht, hname, f, hf, htype⟩
      obtain rfl := List.inj_on_of_nodup_map hlinked.nodup ht hs hname
      obtain ⟨embedded, hembedded⟩ := hlaid.exists_struct (hlinked.members t ht) hf htype
      exact hq.founded b embedded hembedded
    · exact hq.founded name layout hlayout
  · rw [hunderWay]
    exact hp.nodup
  · rw [hunderWay]
    exact hp.declared
  · rw [hunderWay]
    exact hp.room

end LayoutProgress

/-- **Sizing a struct succeeds or comes to one that is under way.** The induction is on how deep
structs may nest. -/
theorem ends_sizeOfStruct (depth : Nat) : (sizeOfStruct schema depth).Detects schema depth := by
  induction depth with
  | zero => exact fun _ _ p hp _ => absurd rfl hp.depth_ne_zero
  | succ depth ih =>
    intro name user p hp hname
    obtain ⟨s, hs, rfl⟩ := List.mem_map.1 hname
    have hfound := Schema.struct?_of_mem hlinked.nodup hs
    obtain ⟨ordered, horder⟩ := Schema.exists_wireOrder_members hchecked hlinked hs (.struct s.name)
    unfold sizeOfStruct
    refine LayoutT.ends_get_bind ?_
    dsimp only
    split
    · exact LayoutT.ends_pure hp
    · next hnew =>
      split
      · next hunderWay =>
        exact LayoutT.ends_throw_bind ⟨hp.relax, s.name, rfl, .found hunderWay⟩
      · next hfree =>
        rw [hfound]
        dsimp only
        refine LayoutT.ends_begin_bind ?_
        rw [horder, LayoutT.ofExcept, pure_bind]
        have hgood := sizeOfStruct_good schema depth
        have hlist := ends_layoutList hgood ih
          (WireOrder.inOrder_of_wireOrder horder (hchecked.members s hs).nodup)
          (fun f hf => hlinked.members s hs f (WireOrder.mem_of_wireOrder horder hf))
          (hp.begin hname hfree) 0 (.struct s.name)
        refine LayoutT.ends_bind (hlist.mono ?_) ?_
        · rintro error p' ⟨before, f, rest, t, rfl, hbefore, ht, hnested, found, rfl, hrecurs⟩
          exact ⟨hnested, found, rfl, .member hfree hfound horder hbefore ht hrecurs⟩
        · rintro ⟨members, endOffset⟩ q hmembers hq
          obtain ⟨-, hgrown, hlaid⟩ := lays_layoutList hgood horder 0 hmembers hp.sound
          exact LayoutT.ends_finish_bind
            (LayoutT.ends_pure (hp.finish hlinked hs hnew hfree hq hgrown hlaid))

end Schema

end WirePlan
