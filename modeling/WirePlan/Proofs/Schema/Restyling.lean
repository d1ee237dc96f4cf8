import WirePlan.Proofs.Outcome
import WirePlan.Schema.Checking

/-!
# Looks that checking does not see

A boxed format has the bytes of the plain one, and the template that a field is a copy of is no more
than a note. A `Restyling` changes nothing else: boxes are put on formats or taken off, notes are
rewritten. Every check goes the same way for restyled fields: it fails with the same error, or what
it gives is restyled (`Schema.ofExpanded_restyle`).
-/

namespace WirePlan

/-! ## Boxes -/

namespace Format

/-- The format without its box. -/
def unboxed : Format → Format
  | refIpv4 => ipv4
  | refIpv6 => ipv6
  | refStruct => struct
  | f => f

theorem unboxed_unboxed (f : Format) : f.unboxed.unboxed = f.unboxed := by cases f <;> rfl

theorem isArray_unboxed (f : Format) : f.unboxed.isArray = f.isArray := by cases f <;> rfl

theorem isStructShaped_unboxed (f : Format) : f.unboxed.isStructShaped = f.isStructShaped := by
  cases f <;> rfl

theorem canCount_unboxed (f : Format) : f.unboxed.canCount = f.canCount := by cases f <;> rfl

theorem hasLengthPrefix_unboxed (f : Format) : f.unboxed.hasLengthPrefix = f.hasLengthPrefix := by
  cases f <;> rfl

theorem unboxed_eq_refStructArray {f : Format} :
    f.unboxed = refStructArray ↔ f = refStructArray := by cases f <;> simp [unboxed]

end Format

/-- Formats are boxed or unboxed, and the notes of templates are changed. -/
structure Restyling where
  /-- Acts on the tags of formats. -/
  tag : String → String
  format : Format → Format
  /-- Acts on the notes of templates. -/
  origin? : Option String → Option String
  lookup_tag : ∀ t, Format.lookup (tag t) = (Format.lookup t).map format
  /-- Formats are the same but for boxes. -/
  unboxed_format : ∀ f, (format f).unboxed = f.unboxed

namespace Restyling

variable (r : Restyling)

theorem ofTag?_tag (t : String) : Format.ofTag? (r.tag t) = (Format.ofTag? t).map r.format := by
  have hlookup := r.lookup_tag t
  unfold Format.lookup at hlookup
  cases hplain : Format.ofTag? t with
  | none =>
    rw [hplain] at hlookup
    cases hstyled : Format.ofTag? (r.tag t) with
    | none => rfl
    | some f => rw [hstyled] at hlookup; cases hlookup
  | some f =>
    rw [hplain] at hlookup
    cases hstyled : Format.ofTag? (r.tag t) with
    | none => rw [hstyled] at hlookup; cases hlookup
    | some f' =>
      rw [hstyled] at hlookup
      cases hlookup
      rfl

/-- A tag that no format has stays as it is. -/
theorem tag_of_unknown {t : String} (h : Format.ofTag? t = none) : r.tag t = t := by
  have hlookup := r.lookup_tag t
  unfold Format.lookup at hlookup
  rw [r.ofTag?_tag, h] at hlookup
  exact congrArg UnknownFormat.tag (Except.error.inj hlookup)

/-- What does not tell a boxed format from the plain one does not see a restyling. -/
theorem apply_format {α : Type} (see : Format → α) (hsee : ∀ f : Format, see f.unboxed = see f)
    (f : Format) : see (r.format f) = see f := by
  rw [← hsee, r.unboxed_format, hsee]

@[simp] theorem isArray_format (f : Format) : (r.format f).isArray = f.isArray :=
  r.apply_format _ Format.isArray_unboxed f

@[simp] theorem isStructShaped_format (f : Format) :
    (r.format f).isStructShaped = f.isStructShaped :=
  r.apply_format _ Format.isStructShaped_unboxed f

@[simp] theorem canCount_format (f : Format) : (r.format f).canCount = f.canCount :=
  r.apply_format _ Format.canCount_unboxed f

@[simp] theorem hasLengthPrefix_format (f : Format) :
    (r.format f).hasLengthPrefix = f.hasLengthPrefix :=
  r.apply_format _ Format.hasLengthPrefix_unboxed f

@[simp] theorem format_eq_refStructArray {f : Format} :
    r.format f = .refStructArray ↔ f = .refStructArray := by
  rw [← Format.unboxed_eq_refStructArray, r.unboxed_format, Format.unboxed_eq_refStructArray]

end Restyling

/-! ## Restyled declarations and schemas -/

/-- The field restyled. -/
def DeclaredField.restyle {P : Type} (r : Restyling) (f : DeclaredField P) : DeclaredField P :=
  { f with format := r.tag f.format, origin? := r.origin? f.origin? }

namespace DeclaredField

variable {P : Type} (r : Restyling) (f : DeclaredField P)

@[simp] theorem name_restyle : (f.restyle r).name = f.name := rfl

@[simp] theorem tag?_restyle : (f.restyle r).tag? = f.tag? := rfl

@[simp] theorem format_restyle : (f.restyle r).format = r.tag f.format := rfl

@[simp] theorem sizeField?_restyle : (f.restyle r).sizeField? = f.sizeField? := rfl

@[simp] theorem prerequisites_restyle : (f.restyle r).prerequisites = f.prerequisites := rfl

end DeclaredField

/-- The struct with its members changed. -/
def DeclaredStruct.mapFields {F G : Type} (change : F → G) (s : DeclaredStruct F) :
    DeclaredStruct G :=
  ⟨s.name, s.members.map change⟩

/-- The message with its fields changed. -/
def DeclaredMessage.mapFields {F G : Type} (change : F → G) (m : DeclaredMessage F) :
    DeclaredMessage G :=
  ⟨m.name, m.service?, m.id, m.containers.map fun c => (c.1, c.2.map change)⟩

/-- The declarations restyled. -/
def Expanded.restyle (r : Restyling) (e : Expanded) : Expanded where
  names := e.names
  messages := e.messages.map (·.mapFields (·.restyle r))
  structs := e.structs.map (·.mapFields (·.restyle r))

/-- The field restyled. -/
def Field.restyle (r : Restyling) (f : Field) : Field :=
  { f with format := r.format f.format, origin? := r.origin? f.origin? }

/-- The struct restyled. -/
def Struct.restyle (r : Restyling) (s : Struct) : Struct :=
  { s with members := s.members.map (·.restyle r) }

/-- The container restyled. -/
def Container.restyle (r : Restyling) (c : Container) : Container :=
  { c with fields := c.fields.map (·.restyle r) }

/-- The message restyled. -/
def Message.restyle (r : Restyling) (m : Message) : Message :=
  { m with containers := m.containers.map (·.restyle r) }

/-- The schema restyled. -/
def Schema.restyle (r : Restyling) (s : Schema) : Schema :=
  { s with messages := s.messages.map (·.restyle r), structs := s.structs.map (·.restyle r) }

/-! ## Checks -/

namespace FieldChecker

variable (c : FieldChecker) (r : Restyling) (siblings : List ExpandedField) (f : ExpandedField)

theorem distinct_restyle (names : List String) (tags : List UInt8) :
    c.distinct names tags (siblings.map (·.restyle r)) = c.distinct names tags siblings := by
  induction siblings generalizing names tags with
  | nil => rfl
  | cons f rest ih => simp [distinct, ih]

/-- A field counts elements under a restyling if it does so without. -/
theorem sizeField_restyle :
    c.sizeField (siblings.map (·.restyle r)) (f.restyle r) = c.sizeField siblings f := by
  have hcounter : ∀ size : String,
      ((siblings.map (·.restyle r)).find? fun s => s.name = size ∧ s.name ≠ (f.restyle r).name).bind
          (fun s => Format.ofTag? s.format) =
        ((siblings.find? fun s => s.name = size ∧ s.name ≠ f.name).bind
          fun s => Format.ofTag? s.format).map r.format := fun size => by
    rw [List.find?_map, Option.bind_map, Option.map_bind]
    exact congrArg _ (funext fun s => r.ofTag?_tag s.format)
  rw [sizeField, sizeField, DeclaredField.sizeField?_restyle]
  cases f.sizeField? with
  | none => rfl
  | some size =>
    dsimp only
    rw [hcounter]
    cases (siblings.find? fun s => s.name = size ∧ s.name ≠ f.name).bind
        fun s => Format.ofTag? s.format with
    | none => rfl
    | some format => simp

theorem links_restyle (format : Format) :
    c.links (siblings.map (·.restyle r)) (f.restyle r) (r.format format) =
      c.links siblings f format := by
  have hstructType : c.structType (f.restyle r) = c.structType f := rfl
  rw [links, links, sizeField_restyle, hstructType, r.isArray_format, r.isStructShaped_format]

theorem prerequisites_restyle :
    c.prerequisites (siblings.map (·.restyle r)) (f.restyle r) = c.prerequisites siblings f := by
  simp only [prerequisites, List.any_map]
  rfl

theorem lengthPrefix?_restyle (format : Format) :
    c.lengthPrefix? (f.restyle r) (r.format format) = c.lengthPrefix? f format := by
  rw [lengthPrefix?, r.hasLengthPrefix_format]
  rfl

/-- **A field is typed under a restyling as it is without**, and then restyled. -/
theorem field_restyle :
    c.field (siblings.map (·.restyle r)) (f.restyle r) =
      (c.field siblings f).map (Field.restyle r) := by
  simp only [field, DeclaredField.format_restyle, DeclaredField.prerequisites_restyle, r.lookup_tag,
    prerequisites_restyle]
  cases Format.lookup f.format with
  | error error => rfl
  | ok format =>
    refine map_bind_eq_map (x := .ok format) (g := r.format) fun format => ?_
    simp only [links_restyle, lengthPrefix?_restyle, r.format_eq_refStructArray]
    split
    · rfl
    · split
      · rfl
      · exact bind_eq_map fun _ => bind_eq_map fun _ => bind_eq_map fun _ => rfl

theorem fields_restyle :
    c.fields (siblings.map (·.restyle r)) =
      (c.fields siblings).map (List.map (Field.restyle r)) := by
  unfold fields
  rw [distinct_restyle, mapM_map_eq_map (c.field_restyle r siblings)]
  exact bind_eq_map fun _ => rfl

end FieldChecker

namespace Expanded

variable (e : Expanded) (r : Restyling) (options : Options)

theorem map_name_restyle : (e.restyle r).structs.map (·.name) = e.structs.map (·.name) := by
  simp [restyle, DeclaredStruct.mapFields]

theorem checker_restyle (ofStruct : Bool) (place : Place) :
    (e.restyle r).checker options ofStruct place = e.checker options ofStruct place := by
  rw [checker, map_name_restyle]
  rfl

theorem checkStruct_restyle (s : DeclaredStruct ExpandedField) :
    (e.restyle r).checkStruct options (s.mapFields (·.restyle r)) =
      (e.checkStruct options s).map (Struct.restyle r) := by
  unfold checkStruct
  rw [checker_restyle]
  dsimp only [DeclaredStruct.mapFields]
  rw [FieldChecker.fields_restyle]
  exact map_bind_eq_map fun _ => rfl

theorem checkContainer_restyle (message : String) (c : ContainerKind × List ExpandedField) :
    (e.restyle r).checkContainer options message (c.1, c.2.map (·.restyle r)) =
      (e.checkContainer options message c).map (Container.restyle r) := by
  unfold checkContainer
  rw [checker_restyle, FieldChecker.fields_restyle]
  exact map_bind_eq_map fun _ => rfl

theorem checkMessage_restyle (service : String) (m : DeclaredMessage ExpandedField) :
    (e.restyle r).checkMessage options service (m.mapFields (·.restyle r)) =
      (e.checkMessage options service m).map (Message.restyle r) := by
  have hcontainers : (m.mapFields (·.restyle r)).containers.mapM
      ((e.restyle r).checkContainer options m.name) =
        (m.containers.mapM (e.checkContainer options m.name)).map
          (List.map (Container.restyle r)) :=
    mapM_map_eq_map (e.checkContainer_restyle r options m.name) m.containers
  have hempty : (m.mapFields (·.restyle r)).containers.isEmpty = m.containers.isEmpty :=
    List.isEmpty_map
  have hname : (m.mapFields (·.restyle r)).name = m.name := rfl
  rw [checkMessage, checkMessage, hempty, hname, hcontainers]
  split
  · rfl
  · exact map_bind_eq_map fun _ => rfl

theorem checkMessages_restyle (service : String) (seen : List String)
    (list : List (DeclaredMessage ExpandedField)) :
    (e.restyle r).checkMessages options service seen (list.map (·.mapFields (·.restyle r))) =
      (e.checkMessages options service seen list).map (List.map (Message.restyle r)) := by
  induction list generalizing seen with
  | nil => rfl
  | cons m rest ih =>
    have hname : (m.mapFields (DeclaredField.restyle r)).name = m.name := rfl
    rw [List.map_cons, checkMessages, checkMessages, hname, checkMessage_restyle, ih]
    split
    · rfl
    · exact map_bind_eq_map fun _ => map_bind_eq_map fun _ => rfl

end Expanded

namespace Schema

variable (r : Restyling)

theorem allFields_restyle (s : Schema) :
    (s.restyle r).allFields = s.allFields.map (Field.restyle r) := by
  simp only [allFields, restyle, Message.restyle, Container.restyle, Struct.restyle,
    List.flatMap_map, List.map_append, List.map_flatMap]

theorem usageAmong_restyle (fields : List Field) (name : String) :
    usageAmong (fields.map (Field.restyle r)) name = usageAmong fields name := by
  simp only [usageAmong, List.any_map, Function.comp_def, Field.restyle, r.isArray_format]
  rfl

theorem withUsage_restyle (s : Schema) : (s.restyle r).withUsage = s.withUsage.restyle r := by
  simp only [withUsage, allFields_restyle, usageAmong_restyle]
  simp only [restyle, List.map_map]
  rfl

/-- **Checking does not see a restyling.** Restyled declarations fail with the same error, or they
become the schema restyled. -/
theorem ofExpanded_restyle (e : Expanded) (options : Options) :
    ofExpanded (e.restyle r) options = (ofExpanded e options).map (restyle r) := by
  have hservice : (e.restyle r).service = e.service := rfl
  have hstructs : (e.restyle r).structs.mapM ((e.restyle r).checkStruct options) =
      (e.structs.mapM (e.checkStruct options)).map (List.map (Struct.restyle r)) :=
    mapM_map_eq_map (e.checkStruct_restyle r options) e.structs
  have hmessages : ∀ service,
      (e.restyle r).checkMessages options service [] (e.restyle r).messages =
        (e.checkMessages options service [] e.messages).map (List.map (Message.restyle r)) :=
    fun service => e.checkMessages_restyle r options service [] e.messages
  unfold ofExpanded
  simp only [Expanded.map_name_restyle, hservice, hstructs, hmessages]
  refine bind_eq_map fun _ => bind_eq_map fun service => bind_eq_map fun _ => ?_
  refine map_bind_eq_map fun structs => map_bind_eq_map fun messages => ?_
  exact congrArg Except.ok (withUsage_restyle r
    { service, variant := options.variant, client? := e.names.client?
      messageIds? := e.names.messageIds?, messages, structs })

end Schema

end WirePlan
