import WirePlan.Proofs.Schema.Steps
import WirePlan.Schema.Expansion

/-!
# Putting templates in place

Declarations are expanded exactly if the names of templates stand once within each kind, every field
template is of a known format, and every template that is used is there
(`Declarations.exists_expand_iff`). What a use of a field template needs besides the template are
the prerequisites in effect: its own where it gives any, even none at all, and only otherwise those
of the template (`FieldUse.Resolves`).

Templates can be put in place by hand: every use of one gives way to a copy with the prerequisites
in effect (`Declarations.inlined`). No use of a template is left then (`Expandable.standsAlone`),
and expanding gives the same declarations but for the note of the template that each field is a copy
of (`Declarations.expand_inlined`).
-/

namespace WirePlan

/-! ## Uses of templates -/

/-- The prerequisite stands by itself, or names a template that is there. -/
def PrerequisiteUse.Resolves (d : Declarations) : PrerequisiteUse → Prop
  | .inline _ => True
  | .shared name => ∃ t ∈ d.prerequisites, t.name = name

/-- The field stands by itself, or names a template that is there. The prerequisites in effect
resolve; those of a template that its use overrides need not. -/
def FieldUse.Resolves (d : Declarations) : FieldUse → Prop
  | .inline f => ∀ p ∈ f.prerequisites, p.Resolves d
  | .shared name own? => ∃ t ∈ d.fragments, t.name = name ∧
      ∀ p ∈ own?.getD t.value.prerequisites, p.Resolves d

/-- The declarations can be expanded. -/
structure Declarations.Expandable (d : Declarations) : Prop where
  fragmentNames : (d.fragments.map (·.name)).Nodup
  prerequisiteNames : (d.prerequisites.map (·.name)).Nodup
  formats : ∀ t ∈ d.fragments, (Format.ofTag? t.value.format).isSome
  members : ∀ s ∈ d.structs, ∀ f ∈ s.members, f.Resolves d
  fields : ∀ m ∈ d.messages, ∀ c ∈ m.containers, ∀ f ∈ c.2, f.Resolves d

/-- A prerequisite with a copy in place of a template. -/
def PrerequisiteUse.inlined (d : Declarations) : PrerequisiteUse → PrerequisiteUse
  | .inline p => .inline p
  | .shared name =>
    match d.prerequisite? name with
    | some p => .inline p
    | none => .shared name

/-- A field with a copy in place of a template, with the prerequisites in effect. -/
def FieldUse.inlined (d : Declarations) : FieldUse → FieldUse
  | .inline f => .inline { f with prerequisites := f.prerequisites.map (·.inlined d) }
  | .shared name own? =>
    match d.fragment? name with
    | some f =>
      .inline { f with prerequisites := (own?.getD f.prerequisites).map (·.inlined d) }
    | none => .shared name own?

/-- A struct with copies in place of templates. -/
def DeclaredStruct.inlined (d : Declarations) (s : DeclaredStruct FieldUse) :
    DeclaredStruct FieldUse :=
  { s with members := s.members.map (·.inlined d) }

/-- A message with copies in place of templates. -/
def DeclaredMessage.inlined (d : Declarations) (m : DeclaredMessage FieldUse) :
    DeclaredMessage FieldUse :=
  { m with containers := m.containers.map fun c => (c.1, c.2.map (·.inlined d)) }

/-- The declarations with every use of a template replaced in its place by a copy. -/
def Declarations.inlined (d : Declarations) : Declarations :=
  { d with messages := d.messages.map (·.inlined d), structs := d.structs.map (·.inlined d) }

/-- The prerequisite names no template. -/
def PrerequisiteUse.StandsAlone (p : PrerequisiteUse) : Prop := ∃ q, p = .inline q

/-- Neither the field nor a prerequisite of it names a template. -/
def FieldUse.StandsAlone (f : FieldUse) : Prop :=
  ∃ g, f = .inline g ∧ ∀ p ∈ g.prerequisites, p.StandsAlone

/-- No field of the declarations names a template. -/
structure Declarations.StandsAlone (d : Declarations) : Prop where
  members : ∀ s ∈ d.structs, ∀ f ∈ s.members, f.StandsAlone
  fields : ∀ m ∈ d.messages, ∀ c ∈ m.containers, ∀ f ∈ c.2, f.StandsAlone

/-! ## The template that a field is a copy of -/

/-- The field without the note of its template. -/
def DeclaredField.withoutOrigin {P : Type} (f : DeclaredField P) : DeclaredField P :=
  { f with origin? := none }

/-- The struct without the notes of templates. -/
def DeclaredStruct.withoutOrigins (s : DeclaredStruct ExpandedField) :
    DeclaredStruct ExpandedField :=
  { s with members := s.members.map (·.withoutOrigin) }

/-- The message without the notes of templates. -/
def DeclaredMessage.withoutOrigins (m : DeclaredMessage ExpandedField) :
    DeclaredMessage ExpandedField :=
  { m with containers := m.containers.map fun c => (c.1, c.2.map (·.withoutOrigin)) }

/-- The declarations without the notes of templates. -/
def Expanded.withoutOrigins (e : Expanded) : Expanded where
  names := e.names
  messages := e.messages.map (·.withoutOrigins)
  structs := e.structs.map (·.withoutOrigins)

/-! ## What is expanded -/

namespace Declarations

variable {d : Declarations} {place : Place}

theorem checkFragments_eq_ok {list : List (Shared (DeclaredField PrerequisiteUse))}
    {seen : List String} {u : Unit} :
    checkFragments seen list = .ok u ↔ (∀ t ∈ list, (Format.ofTag? t.value.format).isSome) ∧
      (list.map (·.name)).Nodup ∧ ∀ t ∈ list, t.name ∉ seen := by
  induction list generalizing seen with
  | nil => simp [checkFragments]
  | cons t rest ih =>
    rw [nodup_keys_cons, List.forall_mem_cons, checkFragments]
    cases Format.ofTag? t.value.format with
    | none => simp
    | some format =>
      by_cases hfresh : t.name ∈ seen
      · simp [hfresh]
      · simp [hfresh, ih]

theorem checkPrerequisites_eq_ok {list : List (Shared Prerequisite)} {seen : List String}
    {u : Unit} :
    checkPrerequisites seen list = .ok u ↔
      (list.map (·.name)).Nodup ∧ ∀ t ∈ list, t.name ∉ seen := by
  induction list generalizing seen with
  | nil => simp [checkPrerequisites]
  | cons t rest ih =>
    rw [nodup_keys_cons, checkPrerequisites]
    by_cases hfresh : t.name ∈ seen
    · simp [hfresh]
    · simp [hfresh, ih]

theorem prerequisite?_isSome {name : String} :
    (∃ p, d.prerequisite? name = some p) ↔ ∃ t ∈ d.prerequisites, t.name = name := by
  rw [prerequisite?, ← Option.isSome_iff_exists, Option.isSome_map, List.find?_isSome]
  simp

/-- As names stand once, a template is found under its own. -/
theorem fragment?_eq_some (hnodup : (d.fragments.map (·.name)).Nodup) {name : String}
    {f : DeclaredField PrerequisiteUse} :
    d.fragment? name = some f ↔ ∃ t ∈ d.fragments, t.name = name ∧ t.value = f := by
  rw [fragment?, Option.map_eq_some_iff]
  refine exists_congr fun t => ?_
  rw [find?_key_eq_some hnodup, and_assoc]

theorem expandPrerequisite_shared_eq_ok {name : String} {p : Prerequisite} :
    d.expandPrerequisite place (.shared name) = .ok p ↔ d.prerequisite? name = some p := by
  dsimp only [expandPrerequisite]
  cases d.prerequisite? name <;> simp

theorem expandField_inline_eq_ok {f : DeclaredField PrerequisiteUse} {g : ExpandedField} :
    d.expandField place (.inline f) = .ok g ↔ ∃ ps,
      d.expandPrerequisites (.field place f.name) f.prerequisites = .ok ps ∧
        g = { f with prerequisites := ps } := by
  dsimp only [expandField]
  rw [bind_eq_ok]
  exact exists_congr fun ps => and_congr_right fun _ => pure_eq_ok.trans eq_comm

/-- The use of a template is the template with the prerequisites in effect. -/
theorem expandField_shared_eq_ok {name : String} {own? : Option (List PrerequisiteUse)}
    {g : ExpandedField} :
    d.expandField place (.shared name own?) = .ok g ↔ ∃ f ps, d.fragment? name = some f ∧
      d.expandPrerequisites (.use place name) (own?.getD f.prerequisites) = .ok ps ∧
        g = { f with prerequisites := ps, origin? := some name } := by
  dsimp only [expandField]
  cases d.fragment? name with
  | none => simp
  | some f =>
    dsimp only
    rw [bind_eq_ok]
    constructor
    · rintro ⟨ps, hps, h⟩
      exact ⟨f, ps, rfl, hps, (pure_eq_ok.1 h).symm⟩
    · rintro ⟨_, ps, ⟨⟩, hps, rfl⟩
      exact ⟨ps, hps, rfl⟩

theorem exists_expandPrerequisite_iff {p : PrerequisiteUse} :
    (∃ q, d.expandPrerequisite place p = .ok q) ↔ p.Resolves d := by
  cases p with
  | inline p => simp [expandPrerequisite, PrerequisiteUse.Resolves]
  | shared name =>
    rw [PrerequisiteUse.Resolves, ← prerequisite?_isSome]
    exact exists_congr fun q => expandPrerequisite_shared_eq_ok

theorem exists_expandPrerequisites_iff {uses : List PrerequisiteUse} :
    (∃ ps, d.expandPrerequisites place uses = .ok ps) ↔ ∀ p ∈ uses, p.Resolves d := by
  rw [expandPrerequisites, exists_mapM_iff]
  exact forall₂_congr fun _ _ => exists_expandPrerequisite_iff

/-- A field is expanded exactly if it resolves. -/
theorem exists_expandField_iff (hnodup : (d.fragments.map (·.name)).Nodup) {use : FieldUse} :
    (∃ f, d.expandField place use = .ok f) ↔ use.Resolves d := by
  cases use with
  | inline f =>
    rw [FieldUse.Resolves]
    constructor
    · rintro ⟨_, h⟩
      obtain ⟨ps, hps, -⟩ := expandField_inline_eq_ok.1 h
      exact exists_expandPrerequisites_iff.1 ⟨ps, hps⟩
    · intro h
      obtain ⟨ps, hps⟩ := exists_expandPrerequisites_iff.2 h
      exact ⟨_, expandField_inline_eq_ok.2 ⟨ps, hps, rfl⟩⟩
  | shared name own? =>
    rw [FieldUse.Resolves]
    constructor
    · rintro ⟨_, h⟩
      obtain ⟨f, ps, hf, hps, -⟩ := expandField_shared_eq_ok.1 h
      obtain ⟨t, ht, hname, rfl⟩ := (fragment?_eq_some hnodup).1 hf
      exact ⟨t, ht, hname, exists_expandPrerequisites_iff.1 ⟨ps, hps⟩⟩
    · rintro ⟨t, ht, hname, hall⟩
      obtain ⟨ps, hps⟩ := exists_expandPrerequisites_iff.2 hall
      have hf := (fragment?_eq_some hnodup).2 ⟨t, ht, hname, rfl⟩
      exact ⟨_, expandField_shared_eq_ok.2 ⟨t.value, ps, hf, hps, rfl⟩⟩

theorem exists_expandFields_iff (hnodup : (d.fragments.map (·.name)).Nodup)
    {uses : List FieldUse} :
    (∃ fs, d.expandFields place uses = .ok fs) ↔ ∀ f ∈ uses, f.Resolves d := by
  rw [expandFields, exists_mapM_iff]
  exact forall₂_congr fun _ _ => exists_expandField_iff hnodup

theorem exists_expandStructs_iff (hnodup : (d.fragments.map (·.name)).Nodup) :
    (∃ structs, d.structs.mapM d.expandStruct = .ok structs) ↔
      ∀ s ∈ d.structs, ∀ f ∈ s.members, f.Resolves d := by
  rw [exists_mapM_iff]
  exact forall₂_congr fun s _ => exists_bind_pure_iff.trans (exists_expandFields_iff hnodup)

theorem exists_expandMessages_iff (hnodup : (d.fragments.map (·.name)).Nodup) :
    (∃ messages, d.messages.mapM d.expandMessage = .ok messages) ↔
      ∀ m ∈ d.messages, ∀ c ∈ m.containers, ∀ f ∈ c.2, f.Resolves d := by
  rw [exists_mapM_iff]
  refine forall₂_congr fun m _ => exists_bind_pure_iff.trans (exists_mapM_iff.trans ?_)
  exact forall₂_congr fun c _ => exists_bind_pure_iff.trans (exists_expandFields_iff hnodup)

/-- Declarations are expanded where their templates are in order and every struct and message is
expanded. -/
theorem expand_eq_ok {e : Expanded} : d.expand = .ok e ↔
    (d.fragments.map (·.name)).Nodup ∧ (d.prerequisites.map (·.name)).Nodup ∧
      (∀ t ∈ d.fragments, (Format.ofTag? t.value.format).isSome) ∧
      d.structs.mapM d.expandStruct = .ok e.structs ∧
      d.messages.mapM d.expandMessage = .ok e.messages ∧ e.names = d.names := by
  constructor
  · intro h
    obtain ⟨_, hfragments, h⟩ := bind_eq_ok.1 h
    obtain ⟨_, hprerequisites, h⟩ := bind_eq_ok.1 h
    obtain ⟨structs, hstructs, h⟩ := bind_eq_ok.1 h
    obtain ⟨messages, hmessages, h⟩ := bind_eq_ok.1 h
    cases pure_eq_ok.1 h
    obtain ⟨hformats, hnodup, -⟩ := checkFragments_eq_ok.1 hfragments
    obtain ⟨hnodup', -⟩ := checkPrerequisites_eq_ok.1 hprerequisites
    exact ⟨hnodup, hnodup', hformats, hstructs, hmessages, rfl⟩
  · rintro ⟨hnodup, hnodup', hformats, hstructs, hmessages, hnames⟩
    have hfragments : checkFragments [] d.fragments = .ok () :=
      checkFragments_eq_ok.2 ⟨hformats, hnodup, fun _ _ => List.not_mem_nil⟩
    have hprerequisites : checkPrerequisites [] d.prerequisites = .ok () :=
      checkPrerequisites_eq_ok.2 ⟨hnodup', fun _ _ => List.not_mem_nil⟩
    refine bind_eq_ok.2 ⟨_, hfragments, bind_eq_ok.2 ⟨_, hprerequisites, bind_eq_ok.2 ⟨_, hstructs,
      bind_eq_ok.2 ⟨_, hmessages, pure_eq_ok.2 ?_⟩⟩⟩⟩
    rw [← hnames]

/-- **Exactly what resolves is expanded.** -/
theorem exists_expand_iff : (∃ e, d.expand = .ok e) ↔ d.Expandable := by
  constructor
  · rintro ⟨e, h⟩
    obtain ⟨hnodup, hnodup', hformats, hstructs, hmessages, -⟩ := expand_eq_ok.1 h
    exact ⟨hnodup, hnodup', hformats, (exists_expandStructs_iff hnodup).1 ⟨_, hstructs⟩,
      (exists_expandMessages_iff hnodup).1 ⟨_, hmessages⟩⟩
  · intro h
    obtain ⟨structs, hstructs⟩ := (exists_expandStructs_iff h.fragmentNames).2 h.members
    obtain ⟨messages, hmessages⟩ := (exists_expandMessages_iff h.fragmentNames).2 h.fields
    exact ⟨⟨d.names, messages, structs⟩, expand_eq_ok.2 ⟨h.fragmentNames, h.prerequisiteNames,
      h.formats, hstructs, hmessages, rfl⟩⟩

/-! ## Copies in place of templates -/

/-- A copy of a template is what the template is expanded to. -/
theorem inlined_of_expandPrerequisite {p : PrerequisiteUse} {q : Prerequisite}
    (h : d.expandPrerequisite place p = .ok q) : p.inlined d = .inline q := by
  cases p with
  | inline p =>
    cases h
    rfl
  | shared name => rw [PrerequisiteUse.inlined, expandPrerequisite_shared_eq_ok.1 h]

theorem expandPrerequisites_inlined {uses : List PrerequisiteUse} {ps : List Prerequisite}
    (h : d.expandPrerequisites place uses = .ok ps) (place' : Place) :
    d.inlined.expandPrerequisites place' (uses.map (·.inlined d)) = .ok ps := by
  refine mapM_eq_ok.2 (List.forall₂_map_left_iff.2 ((mapM_eq_ok.1 h).imp fun p q hq => ?_))
  rw [inlined_of_expandPrerequisite hq]
  rfl

/-- A copy of a template is expanded as the template is, but for the note that it is a copy. -/
theorem expandField_inlined {use : FieldUse} {f : ExpandedField}
    (h : d.expandField place use = .ok f) :
    ∃ f', d.inlined.expandField place (use.inlined d) = .ok f' ∧
      f'.withoutOrigin = f.withoutOrigin := by
  cases use with
  | inline g =>
    obtain ⟨ps, hps, rfl⟩ := expandField_inline_eq_ok.1 h
    exact ⟨_, expandField_inline_eq_ok.2 ⟨ps, expandPrerequisites_inlined hps _, rfl⟩, rfl⟩
  | shared name own? =>
    obtain ⟨g, ps, hg, hps, rfl⟩ := expandField_shared_eq_ok.1 h
    rw [FieldUse.inlined, hg]
    exact ⟨_, expandField_inline_eq_ok.2 ⟨ps, expandPrerequisites_inlined hps _, rfl⟩, rfl⟩

theorem expandStruct_inlined {s : DeclaredStruct FieldUse} {t : DeclaredStruct ExpandedField}
    (h : d.expandStruct s = .ok t) :
    ∃ t', d.inlined.expandStruct (s.inlined d) = .ok t' ∧
      t'.withoutOrigins = t.withoutOrigins := by
  obtain ⟨members, hmembers, h⟩ := bind_eq_ok.1 h
  cases pure_eq_ok.1 h
  obtain ⟨members', hmembers', hsame⟩ := exists_mapM_map expandField_inlined hmembers
  exact ⟨_, bind_eq_ok.2 ⟨members', hmembers', rfl⟩, congrArg (DeclaredStruct.mk s.name) hsame⟩

theorem expandContainer_inlined {message : String} {c : ContainerKind × List FieldUse}
    {k : ContainerKind × List ExpandedField} (h : d.expandContainer message c = .ok k) :
    ∃ k', d.inlined.expandContainer message (c.1, c.2.map (·.inlined d)) = .ok k' ∧
      (k'.1, k'.2.map (·.withoutOrigin)) = (k.1, k.2.map (·.withoutOrigin)) := by
  obtain ⟨fields, hfields, h⟩ := bind_eq_ok.1 h
  cases pure_eq_ok.1 h
  obtain ⟨fields', hfields', hsame⟩ := exists_mapM_map expandField_inlined hfields
  exact ⟨_, bind_eq_ok.2 ⟨fields', hfields', rfl⟩, congrArg (Prod.mk c.1) hsame⟩

theorem expandMessage_inlined {m : DeclaredMessage FieldUse} {k : DeclaredMessage ExpandedField}
    (h : d.expandMessage m = .ok k) :
    ∃ k', d.inlined.expandMessage (m.inlined d) = .ok k' ∧
      k'.withoutOrigins = k.withoutOrigins := by
  obtain ⟨containers, hcontainers, h⟩ := bind_eq_ok.1 h
  cases pure_eq_ok.1 h
  obtain ⟨containers', hcontainers', hsame⟩ := exists_mapM_map expandContainer_inlined hcontainers
  exact ⟨_, bind_eq_ok.2 ⟨containers', hcontainers', rfl⟩,
    congrArg (DeclaredMessage.mk m.name m.service? m.id) hsame⟩

/-- **Copies in place of templates are expanded as the templates are**, but for the notes that they
are copies. -/
theorem expand_inlined {e : Expanded} (h : d.expand = .ok e) :
    ∃ e', d.inlined.expand = .ok e' ∧ e'.withoutOrigins = e.withoutOrigins := by
  obtain ⟨hnodup, hnodup', hformats, hstructs, hmessages, hnames⟩ := expand_eq_ok.1 h
  obtain ⟨structs', hstructs', hsameStructs⟩ := exists_mapM_map expandStruct_inlined hstructs
  obtain ⟨messages', hmessages', hsameMessages⟩ :=
    exists_mapM_map expandMessage_inlined hmessages
  refine ⟨⟨e.names, messages', structs'⟩, expand_eq_ok.2 ⟨hnodup, hnodup', hformats, hstructs',
    hmessages', hnames⟩, ?_⟩
  exact congrArg₂ (Expanded.mk e.names) hsameMessages hsameStructs

/-- A prerequisite that resolves stands by itself when its template is put in place. -/
theorem standsAlone_of_resolves {p : PrerequisiteUse} (h : p.Resolves d) :
    (p.inlined d).StandsAlone := by
  have hexpanded : ∃ q, d.expandPrerequisite .schema p = .ok q :=
    exists_expandPrerequisite_iff.2 h
  obtain ⟨q, hq⟩ := hexpanded
  exact ⟨q, inlined_of_expandPrerequisite hq⟩

/-- So does a field with all its prerequisites. -/
theorem field_standsAlone_of_resolves (hnodup : (d.fragments.map (·.name)).Nodup) {f : FieldUse}
    (h : f.Resolves d) : (f.inlined d).StandsAlone := by
  cases f with
  | inline g =>
    refine ⟨_, rfl, fun p hp => ?_⟩
    obtain ⟨q, hq, rfl⟩ := List.mem_map.1 hp
    exact standsAlone_of_resolves (h q hq)
  | shared name own? =>
    obtain ⟨t, ht, hname, hall⟩ := h
    rw [FieldUse.inlined, (fragment?_eq_some hnodup).2 ⟨t, ht, hname, rfl⟩]
    refine ⟨_, rfl, fun p hp => ?_⟩
    obtain ⟨q, hq, rfl⟩ := List.mem_map.1 hp
    exact standsAlone_of_resolves (hall q hq)

/-- **No use of a template is left.** -/
theorem Expandable.standsAlone (h : d.Expandable) : d.inlined.StandsAlone := by
  constructor
  · intro s hs f hf
    obtain ⟨s', hs', rfl⟩ := List.mem_map.1 hs
    obtain ⟨f', hf', rfl⟩ := List.mem_map.1 hf
    exact field_standsAlone_of_resolves h.fragmentNames (h.members s' hs' f' hf')
  · intro m hm c hc f hf
    obtain ⟨m', hm', rfl⟩ := List.mem_map.1 hm
    obtain ⟨c', hc', rfl⟩ := List.mem_map.1 hc
    obtain ⟨f', hf', rfl⟩ := List.mem_map.1 hf
    exact field_standsAlone_of_resolves h.fragmentNames (h.fields m' hm' c' hc' f' hf')

end Declarations

end WirePlan
