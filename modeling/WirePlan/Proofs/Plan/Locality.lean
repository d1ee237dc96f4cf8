import WirePlan.Plan.Generation
import WirePlan.Proofs.Plan.Unique
import WirePlan.Proofs.Schema.WellFormed

/-!
# Layout is local

One session lays out all the structs and messages of a schema, but the layout of a message depends
on the structs that it reaches only (`Expanded.Reaches`), whatever else the schema declares. Typed
fields are told by the declared ones and the options (`FieldChecker.TypedAs.unique`), so a struct
that two schemas declare alike has the same members in both once they are typed; what it embeds is
reached as well, and by `Plan.struct?_of_members` it is laid out in the same way
(`Plan.layouts_of_shares`). Only how structs are used is told by all fields of a schema.
-/

namespace WirePlan

/-- A field of a format made of structs names a struct. What else names one has no use for it. -/
def DeclaredField.Uses {P : Type} (f : DeclaredField P) (t : String) : Prop :=
  f.structType? = some t ∧
    ∃ format, Format.ofTag? f.format = some format ∧ format.isStructShaped = true

namespace Expanded

variable {e e' : Expanded} {m m' : DeclaredMessage ExpandedField}

/-- The structs that a message is made of: those that its fields use, and those that the members of
one of them use. -/
inductive Reaches (e : Expanded) (m : DeclaredMessage ExpandedField) : String → Prop where
  | field {c : ContainerKind × List ExpandedField} {f : ExpandedField} {t : String}
      (hc : c ∈ m.containers) (hf : f ∈ c.2) (huses : f.Uses t) : Reaches e m t
  | member {s : DeclaredStruct ExpandedField} {f : ExpandedField} {t : String}
      (hs : s ∈ e.structs) (hreaches : Reaches e m s.name) (hf : f ∈ s.members)
      (huses : f.Uses t) : Reaches e m t

/-- The service of a message: its own, or else that of the schema. -/
def serviceOf (e : Expanded) (m : DeclaredMessage ExpandedField) : String :=
  m.service?.getD (e.names.service?.getD "")

/-- Two schemas declare a message alike, and every struct that it reaches. -/
structure Shares (e e' : Expanded) (m m' : DeclaredMessage ExpandedField) : Prop where
  mem : m ∈ e.messages
  mem' : m' ∈ e'.messages
  name : m'.name = m.name
  service : e'.serviceOf m' = e.serviceOf m
  id : m'.id = m.id
  containers : m'.containers = m.containers
  structs : ∀ s ∈ e.structs, e.Reaches m s.name → s ∈ e'.structs

end Expanded

/-! ## Typed declarations -/

namespace FieldChecker.TypedAs

variable {c c' : FieldChecker} {f : ExpandedField} {typed typed' : Field}

/-- A field is typed in one way under the same options. -/
theorem unique (h : c.TypedAs f typed) (h' : c'.TypedAs f typed')
    (hoptions : c'.options = c.options) : typed' = typed := by
  have hformat : typed'.format = typed.format := Option.some.inj (h'.format.symm.trans h.format)
  have hlinks : (typed'.sizeField?, typed'.structType?) =
      (typed.sizeField?, typed.structType?) := by
    rw [h'.links, h.links, hformat]
  have hprefix : typed'.lengthPrefix? = typed.lengthPrefix? := by
    rw [h'.lengthPrefix, h.lengthPrefix, hformat, hoptions]
  have hname := h'.name.trans h.name.symm
  have htag := h'.tag.trans h.tag.symm
  have hmandatory := h'.mandatory.trans h.mandatory.symm
  have hprerequisites := h'.prerequisites.trans h.prerequisites.symm
  have horigin := h'.origin.trans h.origin.symm
  cases typed
  cases typed'
  simp_all

/-- The struct of a typed field is the one that the declared field uses. -/
theorem uses (h : c.TypedAs f typed) {t : String} (ht : typed.structType? = some t) :
    f.Uses t := by
  have hshaped : typed.format.isStructShaped = true := by
    rw [← h.structured, ht]
    rfl
  have htype : typed.structType? = (typed.format.links f.sizeField? f.structType?).2 :=
    congrArg Prod.snd h.links
  refine ⟨?_, typed.format, h.format, hshaped⟩
  rw [← ht, htype]
  cases hformat : typed.format with
  | struct | refStruct | structArray | refStructArray => rfl
  | int _ | uuid | string | ipv4 | ipv6 | refIpv4 | refIpv6 | array _ =>
    rw [hformat] at hshaped
    cases hshaped

end FieldChecker.TypedAs

section Typed

variable {e e' : Expanded} {options : Options}

/-- A struct that two schemas declare alike is made of the same typed members. -/
theorem Struct.Types.members_eq {declared : DeclaredStruct ExpandedField} {t t' : Struct}
    (h : t.Types e options declared) (h' : t'.Types e' options declared) :
    t'.members = t.members :=
  eq_of_forall₂ h.2 h'.2 fun _ _ _ _ hf hf' => hf.unique hf' rfl

/-- A message that two schemas declare alike is the same when it is typed. -/
theorem Message.Types.eq_of_shares {m m' : DeclaredMessage ExpandedField} {typed typed' : Message}
    (h : typed.Types e options m) (h' : typed'.Types e' options m') (hshares : e.Shares e' m m') :
    typed' = typed := by
  have hname : typed'.name = typed.name := by rw [h'.name, h.name, hshares.name]
  have hservice : typed'.service = typed.service := by
    rw [h'.service, h.service]
    exact hshares.service
  have hid : typed'.id = typed.id := by rw [h'.id, h.id, hshares.id]
  have hcontainers : typed'.containers = typed.containers := by
    refine eq_of_forall₂ h.containers (hshares.containers ▸ h'.containers) fun _ _ c c' hc hc' => ?_
    have hkind : c'.kind = c.kind := hc'.1.trans hc.1.symm
    have hfields : c'.fields = c.fields :=
      eq_of_forall₂ hc.2 hc'.2 fun _ _ _ _ hf hf' => hf.unique hf' rfl
    cases c
    cases c'
    simp_all
  cases typed
  cases typed'
  simp_all

variable {m : DeclaredMessage ExpandedField}

/-- What a typed field of the message is made of is reached. -/
theorem Message.Types.reaches {typed : Message} (h : typed.Types e options m)
    {c : Container} (hc : c ∈ typed.containers) {f : Field} (hf : f ∈ c.fields) {t : String}
    (ht : f.structType? = some t) : e.Reaches m t := by
  obtain ⟨declared, hdeclared, -, hfields⟩ := exists_of_mem_right h.containers hc
  obtain ⟨g, hg, htyped⟩ := exists_of_mem_right hfields hf
  exact .field hdeclared hg (htyped.uses ht)

/-- What a struct embeds is reached with it. -/
theorem Schema.Types.reaches_of_embeds {s : Schema} (h : s.Types e options) {a b : String}
    (ha : e.Reaches m a) (hembeds : s.Embeds a b) : e.Reaches m b := by
  obtain ⟨t, ht, rfl, f, hf, hb⟩ := hembeds
  obtain ⟨declared, hdeclared, hname, hmembers⟩ := exists_of_mem_right h.structs ht
  obtain ⟨g, hg, htyped⟩ := exists_of_mem_right hmembers hf
  exact .member hdeclared (hname ▸ ha) hg (htyped.uses hb)

/-- Every struct that is reached is declared. -/
theorem Expanded.WellFormed.mem_of_reaches (h : e.WellFormed options) (hm : m ∈ e.messages)
    {t : String} (ht : e.Reaches m t) : t ∈ e.structs.map (·.name) := by
  have hlisted : ∀ {c : FieldChecker} {list : List ExpandedField} {f : ExpandedField},
      c.AdmitsAll list → f ∈ list → f.Uses t → t ∈ c.structNames := by
    rintro c list f hadmits hf ⟨htype, format, hknown, hshaped⟩
    obtain ⟨format', hadmits⟩ := hadmits.fields f hf
    obtain rfl : format' = format := Option.some.inj (hadmits.known.symm.trans hknown)
    obtain ⟨t', ht', htype'⟩ := hadmits.struct hshaped
    cases htype'.symm.trans htype
    exact ht'
  cases ht with
  | field hc hf huses => exact hlisted (h.fields m hm _ hc) hf huses
  | member hs _ hf huses => exact hlisted (h.members _ hs) hf huses

end Typed

/-! ## Plans -/

namespace Plan

variable {s : Schema} {plan : Plan}

/-- A declared message is planned under its name. -/
theorem message?_of_mem (hnodup : (s.messages.map (·.name)).Nodup) (h : ofSchema s = .ok plan)
    {m : Message} (hm : m ∈ s.messages) :
    ∃ layout, plan.message? m.name = some layout ∧
      MessageLaidOut plan.struct? s.variant m layout := by
  obtain ⟨-, -, hmessages⟩ := laidOut_ofSchema h
  obtain ⟨layout, hlayout, hlaid⟩ := exists_of_mem_left hmessages hm
  have hnames : plan.messages.map (·.name) = s.messages.map (·.name) :=
    map_eq_of_forall₂ (hmessages.imp fun _ _ hl => hl.name_eq)
  exact ⟨layout, (find?_key_eq_some (hnames ▸ hnodup)).2 ⟨hlayout, hlaid.name_eq⟩, hlaid⟩

/-- A struct that the message reaches is laid out alike in both plans. -/
theorem struct?_of_shares {e e' : Expanded} {options : Options} {s' : Schema} {plan' : Plan}
    {m m' : DeclaredMessage ExpandedField} (hs : Schema.ofExpanded e options = .ok s)
    (hs' : Schema.ofExpanded e' options = .ok s') (h : ofSchema s = .ok plan)
    (h' : ofSchema s' = .ok plan') (hshares : e.Shares e' m m') {t : String}
    (hreaches : e.Reaches m t) :
    ∃ layout usage, plan.struct? t = some layout ∧
      plan'.struct? t = some { layout with usage } := by
  obtain ⟨hwellFormed, htypes⟩ := Schema.wellFormed_of_ofExpanded hs
  have htypes' := (Schema.wellFormed_of_ofExpanded hs').2
  have hlinked := (Schema.linked_ofExpanded hs).2
  have hlinked' := (Schema.linked_ofExpanded hs').2
  have hmembers : ∀ t ∈ s.structs, e.Reaches m t.name →
      ∃ t', s'.struct? t.name = some t' ∧ t'.members = t.members := by
    intro t ht hreaches
    obtain ⟨declared, hdeclared, htyped⟩ := exists_of_mem_right htypes.structs ht
    have hdeclared' := hshares.structs declared hdeclared (htyped.1 ▸ hreaches)
    obtain ⟨t', ht', htyped'⟩ := exists_of_mem_left htypes'.structs hdeclared'
    have hname : t'.name = t.name := htyped'.1.trans htyped.1.symm
    exact ⟨t', hname ▸ Schema.struct?_of_mem hlinked'.nodup ht', htyped.members_eq htyped'⟩
  have hnames : s.structs.map (·.name) = e.structs.map (·.name) :=
    map_eq_of_forall₂ (htypes.structs.imp fun _ _ ht => ht.1)
  obtain ⟨layout, hlayout⟩ := (exists_struct?_iff h).2
    (hnames ▸ hwellFormed.mem_of_reaches hshares.mem hreaches)
  obtain ⟨t', -, hlayout'⟩ := struct?_of_members (Schema.checked_ofExpanded hs).1 hlinked h h'
    (fun _ _ => htypes.reaches_of_embeds) hmembers hreaches hlayout
  exact ⟨layout, t'.usage, hlayout, hlayout'⟩

end Plan

/-- **Layout is local.** Where two schemas have plans under the same options and declare a message
alike, with the same fields in every container, the same service and the same members of every
struct that it reaches, both plans have the message, with the same layout, and every struct that it
reaches, with the same layout but for how the struct is used. What else the schemas declare does not
matter. -/
theorem Plan.layouts_of_shares {e e' : Expanded} {options : Options} {plan plan' : Plan}
    {m m' : DeclaredMessage ExpandedField} (h : ofExpanded e options = .ok plan)
    (h' : ofExpanded e' options = .ok plan') (hshares : e.Shares e' m m') :
    (∃ layout, plan.message? m.name = some layout ∧ plan'.message? m.name = some layout) ∧
      ∀ t, e.Reaches m t → ∃ layout usage, plan.struct? t = some layout ∧
        plan'.struct? t = some { layout with usage } := by
  obtain ⟨s, hs, h⟩ := bind_eq_ok.1 h
  obtain ⟨s', hs', h'⟩ := bind_eq_ok.1 h'
  obtain ⟨hwellFormed, htypes⟩ := Schema.wellFormed_of_ofExpanded hs
  obtain ⟨hwellFormed', htypes'⟩ := Schema.wellFormed_of_ofExpanded hs'
  have hstructs : ∀ t, e.Reaches m t → ∃ layout usage, plan.struct? t = some layout ∧
      plan'.struct? t = some { layout with usage } :=
    fun t => struct?_of_shares hs hs' h h' hshares
  -- The message is the same once it is typed, and its fields are made of such structs.
  obtain ⟨typed, htyped, hmessage⟩ := exists_of_mem_left htypes.messages hshares.mem
  obtain ⟨typed', htyped', hmessage'⟩ := exists_of_mem_left htypes'.messages hshares.mem'
  obtain rfl : typed' = typed := hmessage.eq_of_shares hmessage' hshares
  have hnodup : (s.messages.map (·.name)).Nodup :=
    map_eq_of_forall₂ (htypes.messages.imp fun _ _ hm => hm.name) ▸ hwellFormed.messageNames
  have hnodup' : (s'.messages.map (·.name)).Nodup :=
    map_eq_of_forall₂ (htypes'.messages.imp fun _ _ hm => hm.name) ▸ hwellFormed'.messageNames
  obtain ⟨layout, hlayout, hlaid⟩ := message?_of_mem hnodup h htyped
  obtain ⟨layout', hlayout', hlaid'⟩ := message?_of_mem hnodup' h' htyped'
  rw [htypes'.variant, ← htypes.variant] at hlaid'
  have hsame : layout' = layout := by
    refine hlaid.unique hlaid' fun c hc f hf t ht => ?_
    obtain ⟨_, _, hfound, hfound'⟩ := hstructs t (hmessage.reaches hc hf ht)
    rw [hfound, hfound']
    rfl
  exact ⟨⟨layout, hmessage.name ▸ hlayout, hmessage.name ▸ hsame ▸ hlayout'⟩, hstructs⟩

/-- A message that shows marks. -/
def showMessage (service? : Option String) : DeclaredMessage ExpandedField where
  name := "Show"
  service? := service?
  id := 7
  containers := [(.request, [
    { name := "marks", format := "struct-array", sizeField? := some "count"
      structType? := some "Mark" },
    { name := "count", format := "guint8" }])]

/-- A mark at a point. -/
def declaredMark : DeclaredStruct ExpandedField :=
  ⟨"Mark", [
    { name := "at", format := "struct", structType? := some "Point" },
    { name := "label", format := "string", lengthPrefix? := some "guint8" }]⟩

def declaredPoint : DeclaredStruct ExpandedField :=
  ⟨"Point", [{ name := "x", format := "guint16" }, { name := "y", format := "guint16" }]⟩

/-- The message and what it reaches. -/
def showExpanded : Expanded where
  names := { service? := some "S" }
  messages := [showMessage none]
  structs := [declaredMark, declaredPoint]

/-- The message within a larger schema for another service. -/
def tourExpanded : Expanded where
  names := { service? := some "T" }
  messages := [
    { name := "Move", service? := none, id := 1
      containers := [(.request, [
        { name := "path", format := "struct", structType? := some "Path" }])] },
    showMessage (some "S")]
  structs := [
    declaredPoint,
    ⟨"Path", [
      { name := "length", format := "guint8" },
      { name := "points", format := "struct-array", sizeField? := some "length"
        structType? := some "Point" }]⟩,
    declaredMark]

/-- The layout of the message in both plans. -/
def showLayout : MessageLayout :=
  ⟨"Show", "S", 7, [⟨.request, [
    { name := "count", format := .int .u8, header := 0, offset := {}, size := .fixed 1 },
    { name := "marks", format := .structArray, sizeField? := some "count"
      structType? := some "Mark", header := 0, offset := { constant := 1 }
      size := .repeated "count" (.composite "Mark") }],
    { constant := 1, terms := [.bytesOf "marks"] }⟩]⟩

/-- The layout of a mark in both plans. -/
def markLayout : StructLayout where
  name := "Mark"
  members := [
    { name := "at", format := .struct, structType? := some "Point", header := 0, offset := {}
      size := .fixed 4 },
    { name := "label", format := .string, lengthPrefix? := some .u8, header := 0
      offset := { constant := 4 }, size := .lengthPrefixed 1 }]
  endOffset := { constant := 5, terms := [.stringBytes "label"] }
  size := .composite "Mark"
  usage := { arrayMember := true }

/-- The layout of a point that is used in some way. -/
def pointLayout (usage : StructUsage) : StructLayout where
  name := "Point"
  members := [
    { name := "x", format := .int .u16, header := 0, offset := {}, size := .fixed 2 },
    { name := "y", format := .int .u16, header := 0, offset := { constant := 2 }
      size := .fixed 2 }]
  endOffset := { constant := 4 }
  size := .fixed 4
  usage := usage

/-- The plan of the small schema. -/
def showPlan : Plan where
  service := "S"
  variant := .fixed
  messages := [showLayout]
  structs := [markLayout, pointLayout { embedded := true }]

/-- The plan of the large schema. -/
def tourPlan : Plan where
  service := "T"
  variant := .fixed
  messages := [
    ⟨"Move", "T", 1, [⟨.request, [
      { name := "path", format := .struct, structType? := some "Path", header := 0, offset := {}
        size := .composite "Path" }],
      { terms := [.bytesOf "path"] }⟩]⟩,
    showLayout]
  structs := [
    pointLayout { embedded := true, arrayMember := true },
    { name := "Path"
      members := [
        { name := "length", format := .int .u8, header := 0, offset := {}, size := .fixed 1 },
        { name := "points", format := .structArray, sizeField? := some "length"
          structType? := some "Point", header := 0, offset := { constant := 1 }
          size := .repeated "length" (.fixed 4) }]
      endOffset := { constant := 1, terms := [.elements "points" 4 "length"] }
      size := .composite "Path"
      usage := { embedded := true } },
    markLayout]

/-- The message reaches points through marks. -/
theorem reaches_point : showExpanded.Reaches (showMessage none) "Point" := by
  have hmark : showExpanded.Reaches (showMessage none) "Mark" :=
    .field (.head _) (.head _) ⟨rfl, .structArray, by decide +kernel, rfl⟩
  have hdeclared : declaredMark ∈ showExpanded.structs := .head _
  exact .member hdeclared hmark (.head _) ⟨rfl, .struct, by decide +kernel, rfl⟩

/-- The message is planned alike in both schemas, and so are points, which the large schema uses in
an array too. -/
theorem layouts_show :
    Plan.ofExpanded showExpanded {} = .ok showPlan ∧
      Plan.ofExpanded tourExpanded {} = .ok tourPlan ∧
        (∃ layout, showPlan.message? "Show" = some layout ∧
          tourPlan.message? "Show" = some layout) ∧
          ∃ layout usage, showPlan.struct? "Point" = some layout ∧
            tourPlan.struct? "Point" = some { layout with usage } := by
  have hplan : Plan.ofExpanded showExpanded {} = .ok showPlan :=
    toOption_eq_some.1 (by decide +kernel)
  have hplan' : Plan.ofExpanded tourExpanded {} = .ok tourPlan :=
    toOption_eq_some.1 (by decide +kernel)
  have hshares : showExpanded.Shares tourExpanded (showMessage none) (showMessage (some "S")) := {
    mem := .head _
    mem' := .tail _ (.head _)
    name := rfl
    service := rfl
    id := rfl
    containers := rfl
    structs := fun s hs _ => by
      have hsubset : ∀ s ∈ showExpanded.structs, s ∈ tourExpanded.structs := by decide
      exact hsubset s hs }
  obtain ⟨hmessage, hstructs⟩ := Plan.layouts_of_shares hplan hplan' hshares
  exact ⟨hplan, hplan', hmessage, hstructs "Point" reaches_point⟩

end WirePlan
