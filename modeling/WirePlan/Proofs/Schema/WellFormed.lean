import WirePlan.Proofs.Schema.Linked

/-!
# The schemas that pass the check

A schema passes the check exactly when it is well-formed (`Expanded.WellFormed`), which is said here
without a word on the order of checks: names, tags and sections are as they should be, every field
has a known format, and what its format calls for is there (`FieldChecker.Admits`). What the check
gives is the same schema with every field typed in its place (`Schema.Types`): a field keeps what it
declares, and of its links those that its format calls for (`Format.links`).

A list is taken apart by the rules for one check (`FieldChecker.field_eq_ok` and its like) and put
together again from what is well-formed: `fields_eq_ok_iff` for a list, `checkMessages_eq_ok` for
messages. The one place where the order of fields could matter is a size field, which is looked up
by its name; as names stand once, it is the only field of that name.
-/

namespace WirePlan

/-! ## Well-formed declarations -/

/-- The links that a format calls for, of a size field and a struct type that are declared: arrays
of structs both, plain arrays the size field, structs the struct type, and all others none. -/
def Format.links : Format → (sizeField? structType? : Option String) →
    Option String × Option String
  | .structArray, size?, type? | .refStructArray, size?, type? => (size?, type?)
  | .array _, size?, _ => (size?, none)
  | .struct, _, type? | .refStruct, _, type? => (none, type?)
  | .int _, _, _ | .uuid, _, _ | .string, _, _ | .ipv4, _, _ | .ipv6, _, _ | .refIpv4, _, _
  | .refIpv6, _, _ => (none, none)

/-- The tags of the formats that a string may carry its length in. -/
def lengthPrefixTags : List String := ["guint8", "guint16", "guint32"]

namespace FieldChecker

/-- A field of a list is of a format, and what the format calls for is there. -/
structure Admits (c : FieldChecker) (siblings : List ExpandedField) (f : ExpandedField)
    (format : Format) : Prop where
  known : Format.ofTag? f.format = some format
  direct : format = .refStructArray → c.options.variant ≠ .tlv
  ungated : c.ofStruct = true → f.prerequisites = []
  counter : format.isArray = true → ∃ g ∈ siblings, f.sizeField? = some g.name ∧
    g.name ≠ f.name ∧ ∃ i : IntFormat, Format.ofTag? g.format = some (.int i) ∧ i.isSigned = false
  struct : format.isStructShaped = true → ∃ t ∈ c.structNames, f.structType? = some t
  sibling : ∀ p ∈ f.prerequisites, ∃ g ∈ siblings, g.name = p.sibling
  lengthPrefix : format.hasLengthPrefix = true → ∀ tag, f.lengthPrefix? = some tag →
    tag ∈ lengthPrefixTags

/-- A list of fields is well-formed. -/
structure AdmitsAll (c : FieldChecker) (list : List ExpandedField) : Prop where
  names : (list.map (·.name)).Nodup
  tagged : c.ofStruct = false → c.options.variant = .tlv → ∀ f ∈ list, f.tag?.isSome
  tags : c.ofStruct = false → c.options.variant = .tlv → (list.map (·.tag?)).Nodup
  fields : ∀ f ∈ list, ∃ format, c.Admits list f format

/-- The typed field of a declared one: everything is kept, but links that its format does not call
for; those that it calls for are there. Its strings carry their length in the format that it says or
else in that of the options. -/
structure TypedAs (c : FieldChecker) (f : ExpandedField) (typed : Field) : Prop where
  name : typed.name = f.name
  tag : typed.tag? = f.tag?
  mandatory : typed.mandatory = f.mandatory
  format : Format.ofTag? f.format = some typed.format
  links : (typed.sizeField?, typed.structType?) = typed.format.links f.sizeField? f.structType?
  counted : typed.sizeField?.isSome = typed.format.isArray
  structured : typed.structType?.isSome = typed.format.isStructShaped
  prerequisites : typed.prerequisites = f.prerequisites
  origin : typed.origin? = f.origin?
  lengthPrefix : typed.lengthPrefix? =
    if typed.format.hasLengthPrefix then
      some ((f.lengthPrefix?.bind IntFormat.ofTag?).getD c.options.lengthPrefix)
    else none

end FieldChecker

/-- The declarations of a schema are well-formed. -/
structure Expanded.WellFormed (e : Expanded) (options : Options) : Prop where
  lengthPrefix : ∀ p, options.lengthPrefix? = some p → p.tag ∈ lengthPrefixTags
  metadata : ∀ m ∈ options.variant.requiredMetadata, (e.names.get? m).isSome
  structNames : (e.structs.map (·.name)).Nodup
  messageNames : (e.messages.map (·.name)).Nodup
  containers : ∀ m ∈ e.messages, m.containers ≠ []
  members : ∀ s ∈ e.structs, (e.checker options true (.struct s.name)).AdmitsAll s.members
  fields : ∀ m ∈ e.messages, ∀ c ∈ m.containers,
    (e.checker options false (.container m.name c.1)).AdmitsAll c.2

/-- The struct is the declared one with its members typed in their order. -/
def Struct.Types (e : Expanded) (options : Options) (declared : DeclaredStruct ExpandedField)
    (t : Struct) : Prop :=
  t.name = declared.name ∧
    List.Forall₂ (e.checker options true (.struct declared.name)).TypedAs declared.members
      t.members

/-- The container is the declared one with its fields typed in their order. -/
def Container.Types (e : Expanded) (options : Options) (message : String)
    (declared : ContainerKind × List ExpandedField) (c : Container) : Prop :=
  c.kind = declared.1 ∧
    List.Forall₂ (e.checker options false (.container message declared.1)).TypedAs declared.2
      c.fields

/-- The message is the declared one with its containers typed in their order. -/
structure Message.Types (e : Expanded) (options : Options)
    (declared : DeclaredMessage ExpandedField) (m : Message) : Prop where
  name : m.name = declared.name
  service : m.service = declared.service?.getD (e.names.service?.getD "")
  id : m.id = declared.id
  containers : List.Forall₂ (Container.Types e options declared.name) declared.containers
    m.containers

/-- The schema is the declared one with messages and structs typed in their order. -/
structure Schema.Types (e : Expanded) (options : Options) (s : Schema) : Prop where
  service : s.service = e.names.service?.getD ""
  variant : s.variant = options.variant
  client : s.client? = e.names.client?
  messageIds : s.messageIds? = e.names.messageIds?
  messages : List.Forall₂ (Message.Types e options) e.messages s.messages
  structs : List.Forall₂ (Struct.Types e options) e.structs s.structs

/-! ## One field -/

/-- A format that may carry a length is one of three. -/
theorem IntFormat.isLengthPrefix_iff {p : IntFormat} :
    p.isLengthPrefix = true ↔ p.tag ∈ lengthPrefixTags := by
  cases p <;> decide

/-- A tag names a format that may carry a length exactly when it is one of three. -/
theorem IntFormat.exists_ofTag?_iff {tag : String} :
    (∃ p, ofTag? tag = some p ∧ p.isLengthPrefix = true) ↔ tag ∈ lengthPrefixTags := by
  constructor
  · rintro ⟨p, hp, hcarries⟩
    have htag : p.tag = tag := by simpa using List.find?_some hp
    exact htag ▸ isLengthPrefix_iff.1 hcarries
  · intro h
    simp only [lengthPrefixTags, List.mem_cons, List.not_mem_nil, or_false] at h
    rcases h with rfl | rfl | rfl
    · exact ⟨.u8, rfl, rfl⟩
    · exact ⟨.u16, rfl, rfl⟩
    · exact ⟨.u32, rfl, rfl⟩

namespace FieldChecker

variable {c : FieldChecker} {list : List ExpandedField} {f : ExpandedField}

/-- In a list with different names a field is found under its own. -/
theorem find?_sibling (hnodup : (list.map (·.name)).Nodup) {g : ExpandedField} (hg : g ∈ list)
    (hother : g.name ≠ f.name) :
    list.find? (fun s => s.name = g.name ∧ s.name ≠ f.name) = some g := by
  cases hfound : list.find? (fun s => s.name = g.name ∧ s.name ≠ f.name) with
  | none =>
    have hsame : g.name = f.name := by simpa using List.find?_eq_none.1 hfound g hg
    exact absurd hsame hother
  | some s =>
    have hname : s.name = g.name ∧ s.name ≠ f.name := by simpa using List.find?_some hfound
    rw [List.inj_on_of_nodup_map hnodup (List.mem_of_find?_eq_some hfound) hg hname.1]

/-- The size field is another field of the list that holds a number without sign. -/
theorem sizeField_eq_ok_iff (hnodup : (list.map (·.name)).Nodup) {size : String} :
    c.sizeField list f = .ok size ↔ f.sizeField? = some size ∧
      ∃ g ∈ list, f.sizeField? = some g.name ∧ g.name ≠ f.name ∧
        ∃ i : IntFormat, Format.ofTag? g.format = some (.int i) ∧ i.isSigned = false := by
  rw [sizeField_eq_ok]
  constructor
  · rintro ⟨hsize, g, format, hg, hformat, hcounts⟩
    have hname : g.name = size ∧ g.name ≠ f.name := by simpa using List.find?_some hg
    obtain ⟨i, rfl, hunsigned⟩ := Format.int_of_canCount hcounts
    exact ⟨hsize, g, List.mem_of_find?_eq_some hg, hname.1 ▸ hsize, hname.2, i, hformat, hunsigned⟩
  · rintro ⟨hsize, g, hg, hname, hother, i, hformat, hunsigned⟩
    cases hsize.symm.trans hname
    exact ⟨hname, g, .int i, find?_sibling hnodup hg hother, hformat,
      by simp [Format.canCount, hunsigned]⟩

/-- The links of a field are found when what its format calls for is there, and they are these. -/
theorem links_eq_ok_iff (hnodup : (list.map (·.name)).Nodup) {format : Format}
    {size? type? : Option String} :
    c.links list f format = .ok (size?, type?) ↔
      (format.isArray = true → ∃ g ∈ list, f.sizeField? = some g.name ∧ g.name ≠ f.name ∧
        ∃ i : IntFormat, Format.ofTag? g.format = some (.int i) ∧ i.isSigned = false) ∧
      (format.isStructShaped = true → ∃ t ∈ c.structNames, f.structType? = some t) ∧
      (size?, type?) = format.links f.sizeField? f.structType? := by
  have hsize : (∃ size, c.sizeField list f = .ok size ∧ size? = some size) ↔
      (∃ g ∈ list, f.sizeField? = some g.name ∧ g.name ≠ f.name ∧
        ∃ i : IntFormat, Format.ofTag? g.format = some (.int i) ∧ i.isSigned = false) ∧
      size? = f.sizeField? := by
    constructor
    · rintro ⟨size, hsize, rfl⟩
      obtain ⟨hdeclared, hcounter⟩ := (sizeField_eq_ok_iff hnodup).1 hsize
      exact ⟨hcounter, hdeclared.symm⟩
    · rintro ⟨hcounter, rfl⟩
      obtain ⟨g, -, hname, -⟩ := id hcounter
      exact ⟨g.name, (sizeField_eq_ok_iff hnodup).2 ⟨hname, hcounter⟩, hname⟩
  have htype : (∃ t, c.structType f = .ok t ∧ type? = some t) ↔
      (∃ t ∈ c.structNames, f.structType? = some t) ∧ type? = f.structType? := by
    constructor
    · rintro ⟨t, ht, rfl⟩
      obtain ⟨hdeclared, hmem⟩ := structType_eq_ok.1 ht
      exact ⟨⟨t, hmem, hdeclared⟩, hdeclared.symm⟩
    · rintro ⟨⟨t, hmem, hdeclared⟩, rfl⟩
      exact ⟨t, structType_eq_ok.2 ⟨hdeclared, hmem⟩, hdeclared⟩
  rw [links_eq_ok]
  cases format <;>
    simp only [Format.isArray, Format.isStructShaped, Format.links, hsize, htype, Prod.mk.injEq,
      true_implies, Bool.false_eq_true, false_implies, true_and, and_assoc]
  case struct | refStruct => exact and_left_comm
  case structArray | refStructArray => exact and_congr_right fun _ => and_left_comm

/-- The links of a field that the list admits are there exactly when its format calls for them. -/
theorem Admits.isSome_links {format : Format} (h : c.Admits list f format)
    {size? type? : Option String}
    (hlinks : (size?, type?) = format.links f.sizeField? f.structType?) :
    size?.isSome = format.isArray ∧ type?.isSome = format.isStructShaped := by
  have hcounter : format.isArray = true → f.sizeField?.isSome = true := by
    intro harray
    obtain ⟨g, -, hname, -⟩ := h.counter harray
    exact Option.isSome_iff_exists.2 ⟨g.name, hname⟩
  have hstruct : format.isStructShaped = true → f.structType?.isSome = true := by
    intro hshaped
    obtain ⟨t, -, ht⟩ := h.struct hshaped
    exact Option.isSome_iff_exists.2 ⟨t, ht⟩
  cases format <;> cases hlinks <;>
    simp_all only [Format.isArray, Format.isStructShaped, true_implies, Option.isSome_none,
      and_self]

/-- **A field passes** exactly when the list admits it, and it is then typed as it is declared. -/
theorem field_eq_ok_iff (hnodup : (list.map (·.name)).Nodup) {typed : Field} :
    c.field list f = .ok typed ↔ c.Admits list f typed.format ∧ c.TypedAs f typed := by
  rw [field_eq_ok]
  constructor
  · rintro ⟨format, size?, type?, prefix?, hknown, hdirect, hungated, hlinks, hprerequisites,
      hlength, rfl⟩
    obtain ⟨hcounter, hstruct, hlinked⟩ := (links_eq_ok_iff hnodup).1 hlinks
    rw [lengthPrefix?_eq_ok] at hlength
    have hadmits : c.Admits list f format := by
      refine ⟨hknown, hdirect, hungated, hcounter, hstruct, prerequisites_eq_ok.1 hprerequisites,
        fun hneeds tag htag => ?_⟩
      rw [hneeds] at hlength
      exact IntFormat.exists_ofTag?_iff.1 (hlength.1 tag htag)
    obtain ⟨hcounted, hstructured⟩ := hadmits.isSome_links hlinked
    refine ⟨hadmits, ⟨rfl, rfl, rfl, hknown, hlinked, hcounted, hstructured, rfl, rfl, ?_⟩⟩
    · dsimp only
      cases hneeds : format.hasLengthPrefix with
      | true =>
        rw [hneeds] at hlength
        exact hlength.2
      | false =>
        rw [hneeds] at hlength
        exact hlength
  · rintro ⟨hadmits, htyped⟩
    refine ⟨typed.format, typed.sizeField?, typed.structType?, typed.lengthPrefix?, htyped.format,
      hadmits.direct, hadmits.ungated, ?_, prerequisites_eq_ok.2 hadmits.sibling, ?_, ?_⟩
    · exact (links_eq_ok_iff hnodup).2 ⟨hadmits.counter, hadmits.struct, htyped.links⟩
    · rw [lengthPrefix?_eq_ok]
      have hcarries := htyped.lengthPrefix
      cases hneeds : typed.format.hasLengthPrefix with
      | true =>
        rw [hneeds] at hcarries
        exact ⟨fun tag htag =>
          IntFormat.exists_ofTag?_iff.2 (hadmits.lengthPrefix hneeds tag htag), hcarries⟩
      | false =>
        rw [hneeds] at hcarries
        exact hcarries
    · rw [← htyped.name, ← htyped.tag, ← htyped.mandatory, ← htyped.prerequisites, ← htyped.origin]

/-- The field that a declared one makes in a format. -/
def typed (c : FieldChecker) (f : ExpandedField) (format : Format) : Field where
  name := f.name
  tag? := f.tag?
  mandatory := f.mandatory
  format := format
  sizeField? := (format.links f.sizeField? f.structType?).1
  structType? := (format.links f.sizeField? f.structType?).2
  prerequisites := f.prerequisites
  origin? := f.origin?
  lengthPrefix? :=
    if format.hasLengthPrefix then
      some ((f.lengthPrefix?.bind IntFormat.ofTag?).getD c.options.lengthPrefix)
    else none

/-- A field that the list admits has a typed field. -/
theorem Admits.exists_typedAs {format : Format} (h : c.Admits list f format) :
    ∃ t : Field, t.format = format ∧ c.TypedAs f t := by
  have hlinks : ((c.typed f format).sizeField?, (c.typed f format).structType?) =
      format.links f.sizeField? f.structType? := rfl
  obtain ⟨hcounted, hstructured⟩ := h.isSome_links hlinks
  exact ⟨c.typed f format, rfl, rfl, rfl, rfl, h.known, hlinks, hcounted, hstructured, rfl, rfl,
    rfl⟩

/-! ## A list of fields -/

theorem isTagged_iff : c.isTagged = true ↔ c.ofStruct = false ∧ c.options.variant = .tlv := by
  simp [isTagged]

/-- Names and tags stand once. -/
theorem distinct_eq_ok_iff :
    c.distinct [] [] list = .ok () ↔ (list.map (·.name)).Nodup ∧
      (c.ofStruct = false → c.options.variant = .tlv →
        (list.map (·.tag?)).Nodup ∧ ∀ f ∈ list, f.tag?.isSome) := by
  rw [distinct_eq_ok, isTagged_iff]
  simp [Option.isSome_iff_exists]

/-- **A list passes** exactly when it is well-formed, and its fields are then typed in order. -/
theorem fields_eq_ok_iff {typed : List Field} :
    c.fields list = .ok typed ↔ c.AdmitsAll list ∧ List.Forall₂ c.TypedAs list typed := by
  rw [fields_eq_ok, distinct_eq_ok_iff]
  constructor
  · rintro ⟨⟨hnames, htags⟩, hfields⟩
    have hboth := hfields.imp fun _ _ hf => (field_eq_ok_iff hnames).1 hf
    refine ⟨⟨hnames, fun hof htlv => (htags hof htlv).2, fun hof htlv => (htags hof htlv).1,
      fun f hf => ?_⟩, hboth.imp fun _ _ hf => hf.2⟩
    obtain ⟨t, -, hadmits, -⟩ := exists_of_mem_left hboth hf
    exact ⟨t.format, hadmits⟩
  · rintro ⟨hadmits, htyped⟩
    refine ⟨⟨hadmits.names, fun hof htlv => ⟨hadmits.tags hof htlv, hadmits.tagged hof htlv⟩⟩, ?_⟩
    refine ((List.forall₂_and_left _ _).2 ⟨hadmits.fields, htyped⟩).imp ?_
    rintro f t ⟨⟨format, hformat⟩, ht⟩
    refine (field_eq_ok_iff hadmits.names).2 ⟨?_, ht⟩
    rwa [Option.some.inj (ht.format.symm.trans hformat.known)]

/-- A well-formed list passes. -/
theorem exists_fields_eq_ok (h : c.AdmitsAll list) : ∃ typed, c.fields list = .ok typed := by
  have hfield : ∀ f ∈ list, ∃ typed, c.field list f = .ok typed := by
    intro f hf
    obtain ⟨format, hadmits⟩ := h.fields f hf
    obtain ⟨typed, rfl, htyped⟩ := hadmits.exists_typedAs
    exact ⟨typed, (field_eq_ok_iff h.names).2 ⟨hadmits, htyped⟩⟩
  obtain ⟨typed, htyped⟩ := exists_mapM_eq_ok hfield
  have hdistinct : c.distinct [] [] list = .ok () :=
    distinct_eq_ok_iff.2 ⟨h.names, fun hof htlv => ⟨h.tags hof htlv, h.tagged hof htlv⟩⟩
  exact ⟨typed, fields_eq_ok.2 ⟨hdistinct, mapM_eq_ok.1 htyped⟩⟩

end FieldChecker

/-! ## Structs, messages and the whole schema -/

namespace Expanded

variable {e : Expanded} {options : Options}

theorem checkOptions_eq_ok {u : Unit} :
    checkOptions options = .ok u ↔
      ∀ p, options.lengthPrefix? = some p → p.tag ∈ lengthPrefixTags := by
  unfold checkOptions
  cases options.lengthPrefix? with
  | none => simp
  | some p =>
    rw [ite_eq_ok, IntFormat.isLengthPrefix_iff]
    simp

/-- The required sections are there, and the service is that of its section. -/
theorem service_eq_ok {variant : Variant} {service : String} :
    e.service variant = .ok service ↔
      (∀ m ∈ variant.requiredMetadata, (e.names.get? m).isSome) ∧
        service = e.names.service?.getD "" := by
  unfold Expanded.service
  split
  · next m hm =>
    have hmissing := List.find?_some hm
    constructor
    · intro h
      cases h
    · rintro ⟨h, -⟩
      have hpresent := h m (List.mem_of_find?_eq_some hm)
      simp_all
  · next hnone =>
    rw [Except.ok.injEq, eq_comm]
    refine ⟨fun h => ⟨fun m hm => ?_, h⟩, fun h => h.2⟩
    have hthere := List.find?_eq_none.1 hnone m hm
    simpa [Option.isSome_iff_ne_none] using hthere

/-- A struct passes exactly when the list of its members is well-formed. -/
theorem checkStruct_eq_ok {declared : DeclaredStruct ExpandedField} {t : Struct} :
    e.checkStruct options declared = .ok t ↔
      (e.checker options true (.struct declared.name)).AdmitsAll declared.members ∧
        t.usage = {} ∧ t.Types e options declared := by
  rw [checkStruct, bind_eq_ok]
  constructor
  · rintro ⟨members, hmembers, h⟩
    cases pure_eq_ok.1 h
    obtain ⟨hadmits, htyped⟩ := FieldChecker.fields_eq_ok_iff.1 hmembers
    exact ⟨hadmits, rfl, rfl, htyped⟩
  · rintro ⟨hadmits, husage, hname, htyped⟩
    refine ⟨t.members, FieldChecker.fields_eq_ok_iff.2 ⟨hadmits, htyped⟩, pure_eq_ok.2 ?_⟩
    rw [← hname, ← husage]

/-- A container passes exactly when the list of its fields is well-formed. -/
theorem checkContainer_eq_ok {message : String} {declared : ContainerKind × List ExpandedField}
    {c : Container} :
    e.checkContainer options message declared = .ok c ↔
      (e.checker options false (.container message declared.1)).AdmitsAll declared.2 ∧
        c.Types e options message declared := by
  rw [checkContainer, bind_eq_ok]
  constructor
  · rintro ⟨fields, hfields, h⟩
    cases pure_eq_ok.1 h
    obtain ⟨hadmits, htyped⟩ := FieldChecker.fields_eq_ok_iff.1 hfields
    exact ⟨hadmits, rfl, htyped⟩
  · rintro ⟨hadmits, hkind, htyped⟩
    refine ⟨c.fields, FieldChecker.fields_eq_ok_iff.2 ⟨hadmits, htyped⟩, pure_eq_ok.2 ?_⟩
    rw [← hkind]

/-- A message passes exactly when it has a container and the lists of its fields are well-formed. -/
theorem checkMessage_eq_ok {declared : DeclaredMessage ExpandedField} {m : Message} :
    e.checkMessage options (e.names.service?.getD "") declared = .ok m ↔
      declared.containers ≠ [] ∧
      (∀ c ∈ declared.containers,
        (e.checker options false (.container declared.name c.1)).AdmitsAll c.2) ∧
      m.Types e options declared := by
  unfold checkMessage
  split
  · next hempty => simp [List.isEmpty_iff.1 hempty]
  · next hsome =>
    rw [bind_eq_ok]
    have hcontainers : ∀ {containers : List Container},
        declared.containers.mapM (e.checkContainer options declared.name) = .ok containers ↔
          (∀ c ∈ declared.containers,
            (e.checker options false (.container declared.name c.1)).AdmitsAll c.2) ∧
          List.Forall₂ (Container.Types e options declared.name) declared.containers
            containers := by
      intro containers
      rw [mapM_eq_ok, ← List.forall₂_and_left]
      simp only [checkContainer_eq_ok]
    constructor
    · rintro ⟨containers, hchecked, h⟩
      cases pure_eq_ok.1 h
      obtain ⟨hadmits, htyped⟩ := hcontainers.1 hchecked
      exact ⟨fun hnil => hsome (List.isEmpty_iff.2 hnil), hadmits, rfl, rfl, rfl, htyped⟩
    · rintro ⟨-, hadmits, htypes⟩
      refine ⟨m.containers, hcontainers.2 ⟨hadmits, htypes.containers⟩, pure_eq_ok.2 ?_⟩
      rw [← htypes.name, ← htypes.service, ← htypes.id]

/-- Messages pass when their names stand once, none is one of those before, and each passes. -/
theorem checkMessages_eq_ok {service : String} {seen : List String}
    {declared : List (DeclaredMessage ExpandedField)} {messages : List Message} :
    e.checkMessages options service seen declared = .ok messages ↔
      ((declared.map (·.name)).Nodup ∧ ∀ m ∈ declared, m.name ∉ seen) ∧
      List.Forall₂ (fun d m => e.checkMessage options service d = .ok m) declared messages := by
  induction declared generalizing seen messages with
  | nil => simp [checkMessages, eq_comm]
  | cons d rest ih =>
    rw [nodup_keys_cons, checkMessages]
    by_cases hfresh : d.name ∈ seen
    · simp [hfresh]
    rw [if_neg hfresh, bind_eq_ok, List.forall₂_cons_left_iff]
    constructor
    · rintro ⟨m, hm, h⟩
      obtain ⟨others, hothers, h⟩ := bind_eq_ok.1 h
      cases pure_eq_ok.1 h
      obtain ⟨hrest, hpass⟩ := ih.1 hothers
      exact ⟨⟨hfresh, hrest⟩, m, others, hm, hpass, rfl⟩
    · rintro ⟨⟨-, hrest⟩, m, others, hm, hpass, rfl⟩
      exact ⟨m, hm, bind_eq_ok.2 ⟨others, ih.2 ⟨hrest, hpass⟩, rfl⟩⟩

/-- Every struct of well-formed declarations passes. -/
theorem WellFormed.exists_checkStruct (h : e.WellFormed options)
    {s : DeclaredStruct ExpandedField} (hs : s ∈ e.structs) :
    ∃ t, e.checkStruct options s = .ok t := by
  obtain ⟨members, hmembers⟩ := FieldChecker.exists_fields_eq_ok (h.members s hs)
  exact ⟨_, bind_eq_ok.2 ⟨members, hmembers, rfl⟩⟩

/-- Every message of well-formed declarations passes. -/
theorem WellFormed.exists_checkMessage (h : e.WellFormed options)
    {d : DeclaredMessage ExpandedField} (hd : d ∈ e.messages) (service : String) :
    ∃ m, e.checkMessage options service d = .ok m := by
  have hcontainer : ∀ c ∈ d.containers, ∃ layout,
      e.checkContainer options d.name c = .ok layout := by
    intro c hc
    obtain ⟨fields, hfields⟩ := FieldChecker.exists_fields_eq_ok (h.fields d hd c hc)
    exact ⟨_, bind_eq_ok.2 ⟨fields, hfields, rfl⟩⟩
  obtain ⟨containers, hcontainers⟩ := exists_mapM_eq_ok hcontainer
  rw [checkMessage, if_neg fun hempty => h.containers d hd (List.isEmpty_iff.1 hempty)]
  exact ⟨_, bind_eq_ok.2 ⟨containers, hcontainers, rfl⟩⟩

end Expanded

namespace Schema

variable {e : Expanded} {options : Options}

/-- What passes is well-formed, and it is typed. -/
theorem wellFormed_of_ofExpanded {schema : Schema} (h : ofExpanded e options = .ok schema) :
    e.WellFormed options ∧ schema.Types e options := by
  obtain ⟨service, structs, messages, hoptions, hservice, hnames, hstructs, hmessages, rfl⟩ :=
    ofExpanded_eq_ok.1 h
  obtain ⟨hmetadata, rfl⟩ := Expanded.service_eq_ok.1 hservice
  obtain ⟨⟨hmessageNames, -⟩, hchecked⟩ := Expanded.checkMessages_eq_ok.1 hmessages
  have hstruct := (mapM_eq_ok.1 hstructs).imp fun _ _ ht => Expanded.checkStruct_eq_ok.1 ht
  have hmessage := hchecked.imp fun _ _ hm => Expanded.checkMessage_eq_ok.1 hm
  refine ⟨⟨Expanded.checkOptions_eq_ok.1 hoptions, hmetadata,
    (Expanded.distinctNames_eq_ok.1 hnames).1, hmessageNames, fun m hm => ?_, fun s hs => ?_,
    fun m hm => ?_⟩, ⟨rfl, rfl, rfl, rfl, hmessage.imp fun _ _ hm => hm.2.2, ?_⟩⟩
  · obtain ⟨_, -, hsome, -⟩ := exists_of_mem_left hmessage hm
    exact hsome
  · obtain ⟨_, -, hadmits, -⟩ := exists_of_mem_left hstruct hs
    exact hadmits
  · obtain ⟨_, -, -, hadmits, -⟩ := exists_of_mem_left hmessage hm
    exact hadmits
  · rw [withUsage, List.forall₂_map_right_iff]
    exact hstruct.imp fun _ _ ht => ht.2.2

/-- What is well-formed passes. -/
theorem exists_ofExpanded_of_wellFormed (h : e.WellFormed options) :
    ∃ schema, ofExpanded e options = .ok schema := by
  have hoptions : Expanded.checkOptions options = .ok () :=
    Expanded.checkOptions_eq_ok.2 h.lengthPrefix
  have hservice := Expanded.service_eq_ok.2 ⟨h.metadata, rfl⟩
  obtain ⟨structs, hstructs⟩ := exists_mapM_eq_ok fun s hs => h.exists_checkStruct hs
  obtain ⟨messages, hmessages⟩ := exists_mapM_eq_ok fun d hd =>
    h.exists_checkMessage hd (e.names.service?.getD "")
  have hchecked : e.checkMessages options (e.names.service?.getD "") [] e.messages =
      .ok messages :=
    Expanded.checkMessages_eq_ok.2 ⟨⟨h.messageNames, fun _ _ => List.not_mem_nil⟩,
      mapM_eq_ok.1 hmessages⟩
  have hnames : Expanded.distinctNames .struct (.service (e.names.service?.getD "")) []
      (e.structs.map (·.name)) = .ok () :=
    Expanded.distinctNames_eq_ok.2 ⟨h.structNames, fun _ _ => List.not_mem_nil⟩
  exact ⟨_, ofExpanded_eq_ok.2 ⟨_, structs, messages, hoptions, hservice, hnames, hstructs,
    hchecked, rfl⟩⟩

/-- **Exactly the well-formed schemas pass the check.** The options' format of string lengths may
carry a length, the sections of the family are there, names and tags stand once, every message has a
container, and every field is of a known format that suits its list, with all there that the format
calls for. What passes is typed: every struct, message, container and field stands in its declared
place, and a field has a size field and a struct type exactly as its format calls for them. -/
theorem exists_ofExpanded_iff (e : Expanded) (options : Options) :
    ((∃ schema, ofExpanded e options = .ok schema) ↔ e.WellFormed options) ∧
      ∀ schema, ofExpanded e options = .ok schema → schema.Types e options := by
  refine ⟨⟨?_, exists_ofExpanded_of_wellFormed⟩, fun schema h => (wellFormed_of_ofExpanded h).2⟩
  rintro ⟨schema, h⟩
  exact (wellFormed_of_ofExpanded h).1

end Schema

/-- A struct and a message with a count, a name that the count gates, and as many structs; the count
is of the given format. -/
def rosterDeclarations (count : String) : Expanded where
  names := { service? := some "S", client? := some "C", messageIds? := some "I" }
  messages := [{
    name := "M"
    service? := none
    id := 1
    containers := [(.request, [
      { name := "members", tag? := some 2, format := "struct-array", sizeField? := some "count"
        structType? := some "Member" },
      { name := "count", tag? := some 1, format := count, structType? := some "Member" },
      { name := "title", tag? := some 3, format := "string", lengthPrefix? := some "guint16"
        prerequisites := [⟨"count", .gt, .int 0⟩] }])] }]
  structs := [⟨"Member", [{ name := "id", format := "guint32" }]⟩]

/-- The schema that these become. -/
def rosterSchema : Schema where
  service := "S"
  variant := .tlv
  client? := some "C"
  messageIds? := some "I"
  messages := [⟨"M", "S", 1, [⟨.request, [
    { name := "members", tag? := some 2, format := .structArray, sizeField? := some "count"
      structType? := some "Member" },
    { name := "count", tag? := some 1, format := .int .u8 },
    { name := "title", tag? := some 3, format := .string, lengthPrefix? := some .u16
      prerequisites := [⟨"count", .gt, .int 0⟩] }]⟩]⟩]
  structs := [⟨"Member", [{ name := "id", format := .int .u32 }], { arrayMember := true }⟩]

/-- With a count that has no sign the declarations are well-formed and become this schema, in which
the count has lost the struct type that it had no use for; with one that has a sign they are not
well-formed. -/
theorem wellFormed_roster :
    Schema.ofExpanded (rosterDeclarations "guint8") { variant := .tlv } = .ok rosterSchema ∧
      (rosterDeclarations "guint8").WellFormed { variant := .tlv } ∧
      rosterSchema.Types (rosterDeclarations "guint8") { variant := .tlv } ∧
      ¬ (rosterDeclarations "gint8").WellFormed { variant := .tlv } := by
  have hpasses : Schema.ofExpanded (rosterDeclarations "guint8") { variant := .tlv } =
      .ok rosterSchema := toOption_eq_some.1 (by decide +kernel)
  have hfails : (Schema.ofExpanded (rosterDeclarations "gint8") { variant := .tlv }).toOption =
      none := by decide +kernel
  have hiff := Schema.exists_ofExpanded_iff (rosterDeclarations "guint8") { variant := .tlv }
  refine ⟨hpasses, hiff.1.1 ⟨_, hpasses⟩, hiff.2 _ hpasses, fun hsigned => ?_⟩
  obtain ⟨schema, hschema⟩ :=
    (Schema.exists_ofExpanded_iff (rosterDeclarations "gint8") { variant := .tlv }).1.2 hsigned
  rw [toOption_eq_some.2 hschema] at hfails
  cases hfails

end WirePlan
