import WirePlan.Schema.Basic
import WirePlan.Schema.Declaration
import WirePlan.Schema.Error

/-!
# From declarations to a checked schema

Checking types every field of every list and refuses what cannot be laid out or read: unknown
formats, arrays without a sibling that counts them, structs that nobody declares, prerequisites on
fields that are not there, names and tags that stand twice (`Schema.ofExpanded`).

A list is checked as a whole for names and tags first, then field by field. The order of the checks
of one field is the order of the lines of `FieldChecker.field`.
-/

namespace WirePlan

/-- What the check of a field list needs to know of the schema around it. -/
structure FieldChecker where
  /-- The names of the declared structs. -/
  structNames : List String
  options : Options
  /-- The list is that of a struct. -/
  ofStruct : Bool
  /-- The list, for errors. -/
  place : Place

namespace FieldChecker

/-- The fields of the list carry tags. -/
def isTagged (c : FieldChecker) : Bool := !c.ofStruct && c.options.variant == .tlv

/-- The names, and tags where they matter, of a list stand once; `names` and `tags` are those of the
fields before. -/
def distinct (c : FieldChecker) (names : List String) (tags : List UInt8) :
    List ExpandedField → Except SchemaError Unit
  | [] => .ok ()
  | f :: rest =>
    if f.name ∈ names then .error (.duplicate .field f.name c.place)
    else if c.isTagged then
      match f.tag? with
      | none => .error (.invalidRecord (.field c.place f.name) .untagged)
      | some t =>
        if t ∈ tags then
          .error (.duplicate .tag ("0x" ++ Text.paddedHexadecimal 2 t.toNat) c.place)
        else c.distinct (f.name :: names) (t :: tags) rest
    else c.distinct (f.name :: names) tags rest

/-- The sibling that counts the elements of an array. -/
def sizeField (c : FieldChecker) (siblings : List ExpandedField) (f : ExpandedField) :
    Except SchemaError String :=
  match f.sizeField? with
  | none => .error (.missingSizeField f.name none c.place)
  | some size =>
    let counter? := siblings.find? fun s => s.name = size ∧ s.name ≠ f.name
    match counter?.bind fun s => Format.ofTag? s.format with
    | some format =>
      if format.canCount then .ok size else .error (.missingSizeField f.name (some size) c.place)
    | none => .error (.missingSizeField f.name (some size) c.place)

/-- The struct of a struct-shaped field. -/
def structType (c : FieldChecker) (f : ExpandedField) : Except SchemaError String :=
  match f.structType? with
  | none => .error (.missingStructType f.name none c.place)
  | some t =>
    if t ∈ c.structNames then .ok t else .error (.missingStructType f.name (some t) c.place)

/-- The size field and the struct type of the field; those of a field that needs none are passed
over. -/
def links (c : FieldChecker) (siblings : List ExpandedField) (f : ExpandedField)
    (format : Format) : Except SchemaError (Option String × Option String) := do
  let sizeField? ← if format.isArray then some <$> c.sizeField siblings f else pure none
  let structType? ← if format.isStructShaped then some <$> c.structType f else pure none
  return (sizeField?, structType?)

/-- Every prerequisite reads a sibling. -/
def prerequisites (c : FieldChecker) (siblings : List ExpandedField) (f : ExpandedField) :
    Except SchemaError Unit :=
  match f.prerequisites.find? fun p => !siblings.any (·.name = p.sibling) with
  | some p => .error (.unknownPrerequisiteField f.name p.field c.place)
  | none => .ok ()

/-- The format of string lengths of a field that needs one. -/
def lengthPrefix? (c : FieldChecker) (f : ExpandedField) (format : Format) :
    Except SchemaError (Option IntFormat) :=
  if format.hasLengthPrefix then
    match f.lengthPrefix? with
    | none => .ok (some c.options.lengthPrefix)
    | some tag =>
      match IntFormat.lookupLengthPrefix tag with
      | .ok p => .ok (some p)
      | .error e => .error (.unknownFormat e.tag (.lengthPrefix (.field c.place f.name)))
  else .ok none

/-- The typed field. -/
def field (c : FieldChecker) (siblings : List ExpandedField) (f : ExpandedField) :
    Except SchemaError Field := do
  let place := Place.field c.place f.name
  let format ← match Format.lookup f.format with
    | .ok format => pure format
    | .error e => .error (.unknownFormat e.tag place)
  if format = .refStructArray ∧ c.options.variant = .tlv then
    .error (.invalidRecord place .indirectUnderTags)
  if c.ofStruct ∧ f.prerequisites ≠ [] then
    .error (.invalidRecord place .gatedMember)
  let (sizeField?, structType?) ← c.links siblings f format
  c.prerequisites siblings f
  let lengthPrefix? ← c.lengthPrefix? f format
  return {
    name := f.name, tag? := f.tag?, mandatory := f.mandatory, format, sizeField?, structType?
    prerequisites := f.prerequisites, origin? := f.origin?, lengthPrefix? }

/-- The typed fields of the list. -/
def fields (c : FieldChecker) (list : List ExpandedField) : Except SchemaError (List Field) := do
  c.distinct [] [] list
  list.mapM (c.field list)

end FieldChecker

namespace Expanded

/-- Names stand once; `seen` holds those before. -/
def distinctNames (kind : DeclaredKind) (place : Place) (seen : List String) :
    List String → Except SchemaError Unit
  | [] => .ok ()
  | n :: rest =>
    if n ∈ seen then .error (.duplicate kind n place)
    else distinctNames kind place (n :: seen) rest

/-- The format that the options give for string lengths is one that strings may carry. -/
def checkOptions (o : Options) : Except SchemaError Unit :=
  match o.lengthPrefix? with
  | some p => if p.isLengthPrefix then .ok () else .error (.unknownFormat p.tag .options)
  | none => .ok ()

/-- The names that the family requires are given; the result is that of the service. -/
def service (e : Expanded) (variant : Variant) : Except SchemaError String :=
  match variant.requiredMetadata.find? fun m => (e.names.get? m).isNone with
  | some m => .error (.missingPart (.metadata m) (.variant variant))
  | none => .ok (e.names.service?.getD "")

/-- A checker of the schema's lists. -/
def checker (e : Expanded) (options : Options) (ofStruct : Bool) (place : Place) :
    FieldChecker where
  structNames := e.structs.map (·.name)
  options := options
  ofStruct := ofStruct
  place := place

/-- The typed struct, its usage still unknown. -/
def checkStruct (e : Expanded) (options : Options) (s : DeclaredStruct ExpandedField) :
    Except SchemaError Struct := do
  return { name := s.name, members := ← (e.checker options true (.struct s.name)).fields s.members }

/-- The typed container. -/
def checkContainer (e : Expanded) (options : Options) (message : String)
    (c : ContainerKind × List ExpandedField) : Except SchemaError Container := do
  return ⟨c.1, ← (e.checker options false (.container message c.1)).fields c.2⟩

/-- The typed message. -/
def checkMessage (e : Expanded) (options : Options) (service : String)
    (m : DeclaredMessage ExpandedField) : Except SchemaError Message :=
  if m.containers.isEmpty then .error (.missingPart .container (.message m.name))
  else do
    let containers ← m.containers.mapM (e.checkContainer options m.name)
    return ⟨m.name, m.service?.getD service, m.id, containers⟩

/-- The typed messages; `seen` holds the names of those before. -/
def checkMessages (e : Expanded) (options : Options) (service : String) (seen : List String) :
    List (DeclaredMessage ExpandedField) → Except SchemaError (List Message)
  | [] => .ok []
  | m :: rest =>
    if m.name ∈ seen then .error (.duplicate .message m.name (.service service))
    else do
      let message ← e.checkMessage options service m
      let messages ← e.checkMessages options service (m.name :: seen) rest
      return message :: messages

end Expanded

namespace Schema

/-- Every field of the schema. -/
def allFields (s : Schema) : List Field :=
  (s.messages.flatMap fun m => m.containers.flatMap (·.fields)) ++ s.structs.flatMap (·.members)

/-- How fields use the struct with a name. -/
def usageAmong (fields : List Field) (name : String) : StructUsage where
  embedded := fields.any fun f => f.structType? = some name && !f.format.isArray
  arrayMember := fields.any fun f => f.structType? = some name && f.format.isArray

/-- The schema with the usage of every struct noted. -/
def withUsage (s : Schema) : Schema :=
  let fields := s.allFields
  { s with structs := s.structs.map fun t => { t with usage := usageAmong fields t.name } }

/-- The checked schema of expanded declarations. -/
def ofExpanded (e : Expanded) (options : Options) : Except SchemaError Schema := do
  Expanded.checkOptions options
  let service ← e.service options.variant
  Expanded.distinctNames .struct (.service service) [] (e.structs.map (·.name))
  let structs ← e.structs.mapM (e.checkStruct options)
  let messages ← e.checkMessages options service [] e.messages
  return Schema.withUsage {
    service, variant := options.variant, client? := e.names.client?
    messageIds? := e.names.messageIds?, messages, structs }

end Schema

end WirePlan
