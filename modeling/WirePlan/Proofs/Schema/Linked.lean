import WirePlan.Proofs.Schema.Checked

/-!
# What the fields of a checked schema name

A field of a checked list names what its format calls for and nothing else: an array names another
field of the list that holds a number without sign, a struct-shaped field names a declared struct,
and every prerequisite reads a field of the list (`Field.Linked`). Checking keeps the declared order
of messages, containers, structs and fields (`Schema.Keeps`) and links every list of the schema
(`Schema.linked_ofExpanded`).
-/

namespace WirePlan

/-- The field names what its format calls for: a sibling that counts, a struct, siblings to read. -/
structure Field.Linked (structNames : List String) (siblings : List Field) (f : Field) : Prop where
  counter : f.format.isArray = true →
    ∃ g ∈ siblings, f.sizeField? = some g.name ∧ g.name ≠ f.name ∧ g.format.canCount = true
  uncounted : f.format.isArray = false → f.sizeField? = none
  struct : f.format.isStructShaped = true → ∃ t ∈ structNames, f.structType? = some t
  structless : f.format.isStructShaped = false → f.structType? = none
  sibling : ∀ p ∈ f.prerequisites, ∃ g ∈ siblings, g.name = p.sibling

/-- A format that may count is that of a number without sign. -/
theorem Format.int_of_canCount {format : Format} (h : format.canCount = true) :
    ∃ k, format = .int k ∧ k.isSigned = false := by
  cases format with
  | int k => exact ⟨k, rfl, by simpa [canCount] using h⟩
  | uuid | string | ipv4 | ipv6 | refIpv4 | refIpv6 | array _ | struct | refStruct | structArray
  | refStructArray => cases h

/-- The field that a linked one names as its counter holds a number without sign. -/
theorem Field.Linked.int_of_sizeField {structNames : List String} {siblings : List Field}
    {f g : Field} (h : f.Linked structNames siblings) (hnodup : (siblings.map (·.name)).Nodup)
    (hg : g ∈ siblings) (hcount : f.sizeField? = some g.name) :
    ∃ k, g.format = .int k ∧ k.isSigned = false := by
  cases harray : f.format.isArray with
  | false => cases (h.uncounted harray).symm.trans hcount
  | true =>
    obtain ⟨k, hk, hcounter, -, hcounts⟩ := h.counter harray
    have hname : k.name = g.name := Option.some.inj (hcounter.symm.trans hcount)
    rw [← List.inj_on_of_nodup_map hnodup hk hg hname]
    exact Format.int_of_canCount hcounts

/-- A linked field names no struct but those given. -/
theorem Field.Linked.mem_of_structType {structNames : List String} {siblings : List Field}
    {f : Field} (h : f.Linked structNames siblings) {t : String} (ht : f.structType? = some t) :
    t ∈ structNames := by
  cases hshaped : f.format.isStructShaped with
  | false => cases (h.structless hshaped).symm.trans ht
  | true =>
    obtain ⟨s, hs, hstruct⟩ := h.struct hshaped
    cases hstruct.symm.trans ht
    exact hs

/-- A linked field depends on fields of its list. -/
theorem Field.Linked.exists_of_dependency {structNames : List String} {siblings : List Field}
    {f : Field} (h : f.Linked structNames siblings) {d : String} (hd : d ∈ f.dependencies) :
    ∃ g ∈ siblings, g.name = d := by
  rcases List.mem_append.1 hd with hd | hd
  · have hsize : f.sizeField? = some d := Option.mem_toList.1 hd
    cases harray : f.format.isArray with
    | false => cases (h.uncounted harray).symm.trans hsize
    | true =>
      obtain ⟨g, hg, hcounter, -⟩ := h.counter harray
      exact ⟨g, hg, Option.some.inj (hcounter.symm.trans hsize)⟩
  · obtain ⟨p, hp, rfl⟩ := List.mem_map.1 hd
    exact h.sibling p hp

/-- Every list of the schema is linked, and structs are declared once. -/
structure Schema.Linked (s : Schema) : Prop where
  nodup : (s.structs.map (·.name)).Nodup
  containers : ∀ m ∈ s.messages, ∀ c ∈ m.containers, ∀ f ∈ c.fields,
    f.Linked (s.structs.map (·.name)) c.fields
  members : ∀ t ∈ s.structs, ∀ f ∈ t.members, f.Linked (s.structs.map (·.name)) t.members

/-- A declared struct is found under its name. -/
theorem Schema.struct?_of_mem {schema : Schema} (hnodup : (schema.structs.map (·.name)).Nodup)
    {t : Struct} (ht : t ∈ schema.structs) : schema.struct? t.name = some t :=
  (find?_key_eq_some hnodup).2 ⟨ht, rfl⟩

namespace FieldChecker

variable {c : FieldChecker} {siblings list : List ExpandedField} {f : ExpandedField} {typed : Field}

/-- The typed field of a declared one. -/
structure Types (c : FieldChecker) (siblings : List ExpandedField) (f : ExpandedField)
    (typed : Field) : Prop where
  name_eq : typed.name = f.name
  prerequisites_eq : typed.prerequisites = f.prerequisites
  format : Format.ofTag? f.format = some typed.format
  links : c.links siblings f typed.format = .ok (typed.sizeField?, typed.structType?)
  prerequisites : c.prerequisites siblings f = .ok ()

/-- A field that passes the check is typed. -/
theorem types_of_field (h : c.field siblings f = .ok typed) : c.Types siblings f typed := by
  obtain ⟨format, _, _, _, hknown, -, -, hlinks, hprerequisites, -, rfl⟩ := field_eq_ok.1 h
  exact ⟨rfl, rfl, hknown, hlinks, hprerequisites⟩

/-- The fields of a list that passes are typed one by one. -/
theorem types_of_fields {typed : List Field} (h : c.fields list = .ok typed) :
    List.Forall₂ (c.Types list) list typed :=
  (fields_eq_ok.1 h).2.imp fun _ _ hf => types_of_field hf

theorem map_name_of_types {typed : List Field} (h : List.Forall₂ (c.Types siblings) list typed) :
    typed.map (·.name) = list.map (·.name) :=
  map_eq_of_forall₂ (h.imp fun _ _ hf => hf.name_eq)

/-- The size field found is another field of the list, of a format that may count. -/
theorem counter_of_sizeField {typed : List Field} (htyped : List.Forall₂ (c.Types list) list typed)
    {size : String} (h : c.sizeField list f = .ok size) :
    ∃ g ∈ typed, g.name = size ∧ g.name ≠ f.name ∧ g.format.canCount = true := by
  obtain ⟨-, s, format, hs, htag, hcounts⟩ := sizeField_eq_ok.1 h
  obtain ⟨g, hg, htypes⟩ := exists_of_mem_left htyped (List.mem_of_find?_eq_some hs)
  have hname : s.name = size ∧ s.name ≠ f.name := by simpa using List.find?_some hs
  have hformat : g.format = format := Option.some.inj (htypes.format.symm.trans htag)
  exact ⟨g, hg, htypes.name_eq.trans hname.1, htypes.name_eq ▸ hname.2, hformat ▸ hcounts⟩

/-- **A typed field of a list is linked.** -/
theorem linked_of_types {typed : List Field} (htyped : List.Forall₂ (c.Types list) list typed)
    {g : Field} (hg : g ∈ typed) : g.Linked c.structNames typed := by
  obtain ⟨f, hf, htypes⟩ := exists_of_mem_right htyped hg
  obtain ⟨hsize, htype⟩ := links_eq_ok.1 htypes.links
  constructor
  · intro harray
    rw [harray] at hsize
    obtain ⟨size, hsize, hfound⟩ := hsize
    obtain ⟨k, hk, rfl, hother, hcounts⟩ := counter_of_sizeField htyped hsize
    exact ⟨k, hk, hfound, htypes.name_eq ▸ hother, hcounts⟩
  · intro harray
    rwa [harray] at hsize
  · intro hshaped
    rw [hshaped] at htype
    obtain ⟨t, ht, hfound⟩ := htype
    exact ⟨t, (structType_eq_ok.1 ht).2, hfound⟩
  · intro hshaped
    rwa [hshaped] at htype
  · intro p hp
    rw [htypes.prerequisites_eq] at hp
    obtain ⟨s, hs, hname⟩ := prerequisites_eq_ok.1 htypes.prerequisites p hp
    obtain ⟨k, hk, hktypes⟩ := exists_of_mem_left htyped hs
    exact ⟨k, hk, hktypes.name_eq.trans hname⟩

end FieldChecker

/-- The typed container, struct, or message keeps the declared fields in order. -/
def Container.Keeps (declared : ContainerKind × List ExpandedField) (c : Container) : Prop :=
  c.kind = declared.1 ∧ c.fields.map (·.name) = declared.2.map (·.name)

/-- The typed struct keeps the declared members in order. -/
def Struct.Keeps (declared : DeclaredStruct ExpandedField) (t : Struct) : Prop :=
  t.name = declared.name ∧ t.members.map (·.name) = declared.members.map (·.name)

/-- The typed message keeps the declared containers in order. -/
def Message.Keeps (declared : DeclaredMessage ExpandedField) (m : Message) : Prop :=
  m.name = declared.name ∧ List.Forall₂ Container.Keeps declared.containers m.containers

/-- The schema keeps the declared messages and structs in order. -/
structure Schema.Keeps (e : Expanded) (s : Schema) : Prop where
  messages : List.Forall₂ Message.Keeps e.messages s.messages
  structs : List.Forall₂ Struct.Keeps e.structs s.structs

namespace Expanded

variable {e : Expanded} {options : Options}

/-- A typed container keeps its fields, and they are linked. -/
theorem keeps_checkContainer {message : String} {declared : ContainerKind × List ExpandedField}
    {c : Container} (h : e.checkContainer options message declared = .ok c) :
    c.Keeps declared ∧ ∀ f ∈ c.fields, f.Linked (e.structs.map (·.name)) c.fields := by
  obtain ⟨fields, hfields, h⟩ := bind_eq_ok.1 h
  cases pure_eq_ok.1 h
  have htypes := FieldChecker.types_of_fields hfields
  exact ⟨⟨rfl, FieldChecker.map_name_of_types htypes⟩,
    fun f hf => FieldChecker.linked_of_types htypes hf⟩

/-- A typed struct keeps its members, and they are linked. -/
theorem keeps_checkStruct {declared : DeclaredStruct ExpandedField} {t : Struct}
    (h : e.checkStruct options declared = .ok t) :
    t.Keeps declared ∧ ∀ f ∈ t.members, f.Linked (e.structs.map (·.name)) t.members := by
  obtain ⟨members, hmembers, h⟩ := bind_eq_ok.1 h
  cases pure_eq_ok.1 h
  have htypes := FieldChecker.types_of_fields hmembers
  exact ⟨⟨rfl, FieldChecker.map_name_of_types htypes⟩,
    fun f hf => FieldChecker.linked_of_types htypes hf⟩

/-- A typed message keeps its containers, and their fields are linked. -/
theorem keeps_checkMessage {service : String} {declared : DeclaredMessage ExpandedField}
    {m : Message} (h : e.checkMessage options service declared = .ok m) :
    m.Keeps declared ∧
      ∀ c ∈ m.containers, ∀ f ∈ c.fields, f.Linked (e.structs.map (·.name)) c.fields := by
  unfold checkMessage at h
  split at h
  · cases h
  · obtain ⟨containers, hcontainers, h⟩ := bind_eq_ok.1 h
    cases pure_eq_ok.1 h
    have hall := mapM_eq_ok.1 hcontainers
    refine ⟨⟨rfl, hall.imp fun _ _ hc => (keeps_checkContainer hc).1⟩, fun c hc => ?_⟩
    obtain ⟨declared, -, hcontainer⟩ := exists_of_mem_right hall hc
    exact (keeps_checkContainer hcontainer).2

/-- Typed messages keep the declared ones in order, and their fields are linked. -/
theorem keeps_checkMessages {service : String} {seen : List String}
    {declared : List (DeclaredMessage ExpandedField)} {messages : List Message}
    (h : e.checkMessages options service seen declared = .ok messages) :
    List.Forall₂ Message.Keeps declared messages ∧ ∀ m ∈ messages, ∀ c ∈ m.containers,
      ∀ f ∈ c.fields, f.Linked (e.structs.map (·.name)) c.fields := by
  induction declared generalizing seen messages with
  | nil =>
    cases h
    exact ⟨.nil, fun _ hm => nomatch hm⟩
  | cons m rest ih =>
    unfold checkMessages at h
    split at h
    · cases h
    · obtain ⟨message, hmessage, h⟩ := bind_eq_ok.1 h
      obtain ⟨others, hothers, h⟩ := bind_eq_ok.1 h
      cases pure_eq_ok.1 h
      obtain ⟨hkeeps, hlinked⟩ := keeps_checkMessage hmessage
      obtain ⟨hkeeps', hlinked'⟩ := ih hothers
      exact ⟨.cons hkeeps hkeeps', List.forall_mem_cons.2 ⟨hlinked, hlinked'⟩⟩

end Expanded

/-- Noting the usage of structs keeps their names. -/
theorem Schema.map_name_withUsage (s : Schema) :
    s.withUsage.structs.map (·.name) = s.structs.map (·.name) := by
  rw [withUsage, List.map_map]
  rfl

/-- **Checking keeps what is declared and links it.** -/
theorem Schema.linked_ofExpanded {e : Expanded} {options : Options} {schema : Schema}
    (h : ofExpanded e options = .ok schema) : schema.Keeps e ∧ schema.Linked := by
  obtain ⟨service, structs, messages, -, -, hdistinct, hstructs, hmessages, rfl⟩ :=
    ofExpanded_eq_ok.1 h
  have hall := (mapM_eq_ok.1 hstructs).imp fun _ _ ht => Expanded.keeps_checkStruct ht
  have hnames : structs.map (·.name) = e.structs.map (·.name) :=
    map_eq_of_forall₂ (hall.imp fun _ _ ht => ht.1.1)
  obtain ⟨hkeeps, hlinked⟩ := Expanded.keeps_checkMessages hmessages
  refine ⟨⟨hkeeps, ?_⟩, ?_, ?_, ?_⟩
  · rw [withUsage, List.forall₂_map_right_iff]
    exact hall.imp fun _ _ ht => ht.1
  · rw [map_name_withUsage, hnames]
    exact (Expanded.distinctNames_eq_ok.1 hdistinct).1
  · rw [map_name_withUsage, hnames]
    exact hlinked
  · intro t ht
    obtain ⟨s, hs, rfl⟩ := List.mem_map.1 ht
    obtain ⟨_, -, -, hmembers⟩ := exists_of_mem_right hall hs
    rw [map_name_withUsage, hnames]
    exact hmembers

end WirePlan
