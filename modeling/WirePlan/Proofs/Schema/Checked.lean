import WirePlan.Proofs.Schema.Steps

/-!
# What checking guarantees

The names of a checked list stand once, strings carry their length in a format that may carry it,
and no member of a struct is gated (`Schema.checked_ofExpanded`).
-/

namespace WirePlan

/-- Names stand once, and strings carry their length in a format that may carry it. -/
structure CheckedList (fields : List Field) : Prop where
  nodup : (fields.map (·.name)).Nodup
  lengthFormat : ∀ f ∈ fields, f.format.hasLengthPrefix = true →
    f.lengthFormat.isLengthPrefix = true

/-- Every list of the schema is checked, and no member of a struct is gated. -/
structure Schema.Checked (s : Schema) : Prop where
  containers : ∀ m ∈ s.messages, ∀ c ∈ m.containers, CheckedList c.fields
  members : ∀ t ∈ s.structs, CheckedList t.members
  ungated : ∀ t ∈ s.structs, ∀ f ∈ t.members, f.prerequisites = []

/-- Options under which strings carry their length in a format that may carry it. -/
theorem Options.isLengthPrefix {o : Options} {u : Unit} (h : Expanded.checkOptions o = .ok u) :
    o.lengthPrefix.isLengthPrefix = true := by
  unfold Expanded.checkOptions at h
  unfold Options.lengthPrefix
  split at h
  · next p hp =>
    rw [hp]
    exact (ite_eq_ok.1 h).1
  · next hnone =>
    rw [hnone]
    cases o.variant <;> rfl

namespace FieldChecker

variable {c : FieldChecker}

/-- The length format found for a field that needs one may carry a length. -/
theorem isLengthPrefix_of_lengthPrefix? (hoptions : c.options.lengthPrefix.isLengthPrefix = true)
    {f : ExpandedField} {format : Format} {p? : Option IntFormat}
    (h : c.lengthPrefix? f format = .ok p?) (hneeds : format.hasLengthPrefix = true) :
    (p?.getD .u32).isLengthPrefix = true := by
  have hcarries := lengthPrefix?_eq_ok.1 h
  rw [hneeds] at hcarries
  obtain ⟨hknown, rfl⟩ := hcarries
  rw [Option.getD_some]
  cases htag : f.lengthPrefix? with
  | none => exact hoptions
  | some tag =>
    obtain ⟨p, hp, hlength⟩ := hknown tag htag
    simpa [hp] using hlength

/-- What the check of a field gives. -/
theorem checked_field {siblings : List ExpandedField} {f : ExpandedField} {typed : Field}
    (h : c.field siblings f = .ok typed) :
    typed.name = f.name ∧ (c.ofStruct = true → typed.prerequisites = []) ∧
      c.lengthPrefix? f typed.format = .ok typed.lengthPrefix? := by
  obtain ⟨_, _, _, _, -, -, hungated, -, -, hlength, rfl⟩ := field_eq_ok.1 h
  exact ⟨rfl, hungated, hlength⟩

/-- A list that passes is checked, and in a struct no field of it is gated. -/
theorem checked_fields (hoptions : c.options.lengthPrefix.isLengthPrefix = true)
    {list : List ExpandedField} {typed : List Field} (h : c.fields list = .ok typed) :
    CheckedList typed ∧ (c.ofStruct = true → ∀ f ∈ typed, f.prerequisites = []) := by
  obtain ⟨hdistinct, hfields⟩ := fields_eq_ok.1 h
  have hnames : typed.map (·.name) = list.map (·.name) :=
    map_eq_of_forall₂ (hfields.imp fun _ _ hf => (checked_field hf).1)
  refine ⟨⟨hnames ▸ (distinct_eq_ok.1 hdistinct).1.1, fun f hf hneeds => ?_⟩, fun hof f hf => ?_⟩
  · obtain ⟨_, -, hfield⟩ := exists_of_mem_right hfields hf
    exact isLengthPrefix_of_lengthPrefix? hoptions (checked_field hfield).2.2 hneeds
  · obtain ⟨_, -, hfield⟩ := exists_of_mem_right hfields hf
    exact (checked_field hfield).2.1 hof

end FieldChecker

namespace Expanded

variable {e : Expanded} {options : Options}

/-- The containers of a checked message are checked. -/
theorem checked_checkMessage (hoptions : options.lengthPrefix.isLengthPrefix = true)
    {service : String} {m : DeclaredMessage ExpandedField} {message : Message}
    (h : e.checkMessage options service m = .ok message) :
    ∀ c ∈ message.containers, CheckedList c.fields := by
  unfold checkMessage at h
  split at h
  · cases h
  · obtain ⟨containers, hcontainers, h⟩ := bind_eq_ok.1 h
    cases pure_eq_ok.1 h
    intro c hc
    obtain ⟨declared, -, hcontainer⟩ := exists_of_mem_right (mapM_eq_ok.1 hcontainers) hc
    obtain ⟨fields, hfields, h⟩ := bind_eq_ok.1 hcontainer
    cases pure_eq_ok.1 h
    exact (FieldChecker.checked_fields hoptions hfields).1

/-- The containers of checked messages are checked. -/
theorem checked_checkMessages (hoptions : options.lengthPrefix.isLengthPrefix = true)
    {service : String} {seen : List String} {list : List (DeclaredMessage ExpandedField)}
    {messages : List Message} (h : e.checkMessages options service seen list = .ok messages) :
    ∀ m ∈ messages, ∀ c ∈ m.containers, CheckedList c.fields := by
  induction list generalizing seen messages with
  | nil =>
    cases h
    exact fun _ hm => nomatch hm
  | cons m rest ih =>
    unfold checkMessages at h
    split at h
    · cases h
    · obtain ⟨message, hmessage, h⟩ := bind_eq_ok.1 h
      obtain ⟨others, hothers, h⟩ := bind_eq_ok.1 h
      cases pure_eq_ok.1 h
      intro m' hm'
      cases hm' with
      | head => exact checked_checkMessage hoptions hmessage
      | tail _ hm' => exact ih hothers m' hm'

/-- The members of a checked struct are checked, and none is gated. -/
theorem checked_checkStruct (hoptions : options.lengthPrefix.isLengthPrefix = true)
    {s : DeclaredStruct ExpandedField} {t : Struct} (h : e.checkStruct options s = .ok t) :
    CheckedList t.members ∧ ∀ f ∈ t.members, f.prerequisites = [] := by
  obtain ⟨members, hmembers, h⟩ := bind_eq_ok.1 h
  cases pure_eq_ok.1 h
  obtain ⟨hlist, hungated⟩ := FieldChecker.checked_fields hoptions hmembers
  exact ⟨hlist, hungated rfl⟩

end Expanded

/-- **A checked schema is checked.** -/
theorem Schema.checked_ofExpanded {e : Expanded} {options : Options} {schema : Schema}
    (h : ofExpanded e options = .ok schema) :
    schema.Checked ∧ schema.variant = options.variant := by
  obtain ⟨service, structs, messages, hoptions, -, -, hstructs, hmessages, rfl⟩ :=
    ofExpanded_eq_ok.1 h
  have hcarries := Options.isLengthPrefix hoptions
  have hstruct : ∀ t ∈ structs, CheckedList t.members ∧ ∀ f ∈ t.members, f.prerequisites = [] := by
    intro t ht
    obtain ⟨s, -, hs⟩ := exists_of_mem_right (mapM_eq_ok.1 hstructs) ht
    exact Expanded.checked_checkStruct hcarries hs
  refine ⟨⟨Expanded.checked_checkMessages hcarries hmessages, fun t ht => ?_, fun t ht => ?_⟩, rfl⟩
  · obtain ⟨s, hs, rfl⟩ := List.mem_map.1 ht
    exact (hstruct s hs).1
  · obtain ⟨s, hs, rfl⟩ := List.mem_map.1 ht
    exact (hstruct s hs).2

end WirePlan
