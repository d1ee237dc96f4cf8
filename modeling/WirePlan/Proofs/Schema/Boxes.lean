import WirePlan.Proofs.Schema.Restyling
import WirePlan.Schema.Expansion
import WirePlan.Schema.Reading

/-!
# Boxes in the records of a schema

To take the boxes off formats is a restyling (`Restyling.unboxed`). In the records of a schema a
format is a tag that stands under a key of a field, in a list of fields or in a template;
`Json.unboxed` takes off the boxes there and leaves everything else as it is. A record without boxes
is read as the record is (`Record.ofJson_unboxed`), it declares the same
(`Declarations.addItems_unboxed`), and templates are put in place in the same way
(`Declarations.expand_unboxed`), each time but for the boxes; what fails does so with the same
error.
-/

namespace WirePlan

/-! ## Tags -/

/-- The tag of the plain format in place of that of a boxed one. -/
def Format.unboxedTag (t : String) : String :=
  if t = refIpv4.tag then ipv4.tag
  else if t = refIpv6.tag then ipv6.tag
  else if t = refStruct.tag then struct.tag
  else t

/-- The format without its box has the tag without its box. -/
theorem Format.lookup_unboxedTag (t : String) :
    lookup (unboxedTag t) = (lookup t).map unboxed := by
  unfold unboxedTag
  split
  · next h => subst h; rfl
  split
  · next h => subst h; rfl
  split
  · next h => subst h; rfl
  unfold lookup
  cases hfound : ofTag? t with
  | none => rfl
  | some f =>
    have hplain : f.unboxed = f := by
      unfold ofTag? at hfound
      split at hfound
      · cases hfound
        rfl
      · have htag : f.tag = t := by simpa using List.find?_some hfound
        subst htag
        cases f with
        | refIpv4 => contradiction
        | refIpv6 => contradiction
        | refStruct => contradiction
        | _ => rfl
    exact congrArg Except.ok hplain.symm

/-- Boxes are taken off. -/
def Restyling.unboxed : Restyling where
  tag := Format.unboxedTag
  format := Format.unboxed
  origin? := id
  lookup_tag := Format.lookup_unboxedTag
  unboxed_format := Format.unboxed_unboxed

/-! ## Values without boxes -/

namespace Json

/-- The members of an object, the value of each changed by its key. -/
def changeMembers (change : String → Json → Json) (members : List (String × Json)) :
    List (String × Json) :=
  members.map fun m => (m.1, change m.1 m.2)

/-- The items of an array that gives the values of some keys, each changed by its key. -/
def changeItems (keys : List String) (change : String → Json → Json) (items : List Json) :
    List Json :=
  List.zipWith change keys items ++ items.drop keys.length

/-- A tag without its box. -/
def unboxedTag : Json → Json
  | .string t => .string (Format.unboxedTag t)
  | v => v

/-- What a field gives under a key, without the box of its format. -/
def unboxedOfField (key : String) (v : Json) : Json := if key = "format" then v.unboxedTag else v

/-- A field without the box of its format. -/
def unboxedField : Json → Json
  | .object members => .object (changeMembers unboxedOfField members)
  | .array items => .array (changeItems FieldRecord.reader.keys unboxedOfField items)
  | v => v

/-- A list of fields without the boxes of their formats. -/
def unboxedFields : Json → Json
  | .array items => .array (items.map unboxedField)
  | v => v

/-- What a record gives under a key, without the boxes of formats. -/
def unboxedOfRecord (key : String) (v : Json) : Json :=
  if key = "contents" ∨ (containerOfKey? key).isSome then v.unboxedFields else v.unboxedOfField key

/-- The keys that a record of a type gives the values of in the array form. -/
def keysOfType : (type : String) → List String
  | "Service" | "Client" | "Message-ID-Enum" => nameReader.keys
  | "Message" => MessageRecord.reader.keys
  | "Struct" => StructRecord.reader.keys
  | "CommonFragment-TLV" => FieldRecord.reader.keys
  | "CommonFragment-Prerequisite" => PrerequisiteRecord.reader.keys
  | _ => []

/-- A record without the boxes of formats. -/
def unboxed : Json → Json
  | .object members => .object (changeMembers unboxedOfRecord members)
  | .array (.string type :: items) =>
    .array (.string type :: changeItems (keysOfType type) unboxedOfRecord items)
  | v => v

theorem find?_changeMembers (change : String → Json → Json) (members : List (String × Json))
    (key : String) :
    Keyed.find? (changeMembers change members) key =
      (Keyed.find? members key).map (change key) := by
  induction members with
  | nil => rfl
  | cons m rest ih =>
    rw [changeMembers, List.map_cons, ← changeMembers, Keyed.find?, Keyed.find?, ih]
    split
    · next h => subst h; rfl
    · rfl

theorem zip_changeItems (keys : List String) (change : String → Json → Json) (items : List Json) :
    keys.zip (changeItems keys change items) =
      (keys.zip items).map fun m => (m.1, change m.1 m.2) := by
  unfold changeItems
  induction keys generalizing items with
  | nil => rfl
  | cons key keys ih =>
    cases items with
    | nil => rfl
    | cons item items => simpa using ih items

theorem length_changeItems (keys : List String) (change : String → Json → Json)
    (items : List Json) : (changeItems keys change items).length = items.length := by
  simp only [changeItems, List.length_append, List.length_zipWith, List.length_drop]
  omega

end Json

/-! ## Records -/

/-- The record that is read from changed values is what is to be seen of the one that is read from
the values. -/
structure RecordReader.Sees {α : Type} (r : RecordReader α) (change : String → Json → Json)
    (see : α → α) : Prop where
  empty : see r.empty = r.empty
  put : ∀ a key v, r.put (see a) key (change key v) = (r.put a key v).map see

namespace RecordReader.Sees

variable {α : Type} {r : RecordReader α} {change : String → Json → Json} {see : α → α}

theorem ofMembers (h : r.Sees change see) (members : List (String × Json)) :
    r.ofMembers (Json.changeMembers change members) = (r.ofMembers members).map see := by
  unfold RecordReader.ofMembers
  nth_rewrite 1 [← h.empty]
  exact foldlM_map_eq_map (fun a m => h.put a m.1 m.2) members r.empty

theorem ofItems (h : r.Sees change see) (items : List Json) :
    r.ofItems (Json.changeItems r.keys change items) = (r.ofItems items).map see := by
  have hread : ((r.keys.zip items).map fun m => (m.1, change m.1 m.2)).foldlM
      (fun a m => r.put a m.1 m.2) r.empty =
        ((r.keys.zip items).foldlM (fun a m => r.put a m.1 m.2) r.empty).map see := by
    nth_rewrite 1 [← h.empty]
    exact foldlM_map_eq_map (fun a m => h.put a m.1 m.2) _ r.empty
  unfold RecordReader.ofItems
  rw [Json.zip_changeItems, Json.length_changeItems, hread]
  refine map_bind_eq_map fun a => ?_
  split
  · rfl
  · split <;> rfl

end RecordReader.Sees

open ValueReader

/-- The record without the box of its format. -/
def FieldRecord.unboxed (r : FieldRecord) : FieldRecord :=
  { r with format? := r.format?.map Format.unboxedTag }

/-- The record without the boxes of formats. -/
def MessageRecord.unboxed (r : MessageRecord) : MessageRecord :=
  { r with lists := r.lists.map fun l => (l.1, l.2.map (List.map FieldRecord.unboxed)) }

/-- The record without the boxes of formats. -/
def StructRecord.unboxed (r : StructRecord) : StructRecord :=
  { r with contents? := r.contents?.map (List.map FieldRecord.unboxed) }

/-- The record without the boxes of formats. -/
def Record.unboxed : Record → Record
  | .message name r => .message name r.unboxed
  | .struct name contents => .struct name (contents.map FieldRecord.unboxed)
  | .fragment r => .fragment r.unboxed
  | r => r

theorem text_unboxedTag (v : Json) :
    optional text v.unboxedTag = (optional text v).map (Option.map Format.unboxedTag) := by
  cases v <;> rfl

/-- A field is read without the box of its format wherever the change takes that box off and leaves
the other values of the field as they are. -/
theorem FieldRecord.sees {change : String → Json → Json}
    (hformat : ∀ v, change "format" v = v.unboxedTag)
    (hothers : ∀ key ∈ reader.keys, key ≠ "format" → ∀ v, change key v = v) :
    reader.Sees change unboxed := by
  refine ⟨rfl, fun r key v => ?_⟩
  dsimp only [reader]
  split
  case h_4 =>
    -- The key of the format; the others are left alone, and unknown keys passed over.
    rw [hformat, text_unboxedTag]
    exact map_bind_eq_map fun _ => rfl
  case h_10 => rfl
  all_goals
    rw [hothers _ (by decide) (by decide)]
    exact bind_eq_map fun _ => rfl

/-- None of the keys of a field is one of a list of fields. -/
theorem FieldRecord.sees_ofRecord : reader.Sees Json.unboxedOfRecord unboxed := by
  have hlists : ∀ key ∈ reader.keys, ¬(key = "contents" ∨ (containerOfKey? key).isSome) := by decide
  exact sees (fun _ => rfl) fun key hkey hformat _ =>
    (if_neg (hlists key hkey)).trans (if_neg hformat)

theorem FieldRecord.read_unboxedField (v : Json) :
    reader.read v.unboxedField = (reader.read v).map unboxed := by
  have hsees : reader.Sees Json.unboxedOfField unboxed :=
    sees (fun _ => if_pos rfl) fun _ _ hkey _ => if_neg hkey
  cases v with
  | object members => exact hsees.ofMembers members
  | array items => exact hsees.ofItems items
  | _ => rfl

theorem list_unboxedFields (v : Json) :
    list FieldRecord.reader.read v.unboxedFields =
      (list FieldRecord.reader.read v).map (List.map FieldRecord.unboxed) := by
  cases v with
  | array items => exact mapM_map_eq_map FieldRecord.read_unboxedField items
  | _ => rfl

theorem optional_unboxedFields (v : Json) :
    optional (list FieldRecord.reader.read) v.unboxedFields =
      (optional (list FieldRecord.reader.read) v).map
        (Option.map (List.map FieldRecord.unboxed)) := by
  cases v with
  | array items =>
    change (list FieldRecord.reader.read (Json.array items).unboxedFields >>= _) = _
    rw [list_unboxedFields]
    exact map_bind_eq_map fun _ => rfl
  | _ => rfl

theorem nameReader_sees : nameReader.Sees Json.unboxedOfRecord id := by
  refine ⟨rfl, fun r key v => ?_⟩
  dsimp only [nameReader]
  split
  · exact bind_eq_map fun _ => rfl
  · rfl

theorem PrerequisiteRecord.sees : reader.Sees Json.unboxedOfRecord id := by
  refine ⟨rfl, fun r key v => ?_⟩
  dsimp only [reader]
  split
  case h_5 => rfl
  all_goals exact bind_eq_map fun _ => rfl

theorem StructRecord.sees : reader.Sees Json.unboxedOfRecord unboxed := by
  refine ⟨rfl, fun r key v => ?_⟩
  dsimp only [reader]
  split
  · exact bind_eq_map fun _ => rfl
  · have hfields : v.unboxedFields = Json.unboxedOfRecord "contents" v := rfl
    rw [← hfields, list_unboxedFields]
    exact map_bind_eq_map fun _ => rfl
  · rfl

theorem MessageRecord.sees : reader.Sees Json.unboxedOfRecord unboxed := by
  refine ⟨rfl, fun r key v => ?_⟩
  dsimp only [reader]
  split
  · exact bind_eq_map fun _ => rfl
  · exact bind_eq_map fun _ => rfl
  · exact bind_eq_map fun _ => rfl
  · cases hkind : containerOfKey? key with
    | none => rfl
    | some kind =>
      have hfields : Json.unboxedOfRecord key v = v.unboxedFields :=
        if_pos (.inr (by rw [hkind]; rfl))
      have hlists : r.unboxed.lists.any (·.1 = kind) = r.lists.any (·.1 = kind) := by
        simp only [unboxed, List.any_map]
        rfl
      dsimp only
      rw [hfields, hlists, optional_unboxedFields]
      split
      · rfl
      · refine map_bind_eq_map fun fields => congrArg Except.ok ?_
        simp [unboxed]

/-- The values of a record without the boxes of formats. -/
def RecordBody.unboxed (type : String) : RecordBody → RecordBody
  | .members m => .members (Json.changeMembers Json.unboxedOfRecord m)
  | .items i => .items (Json.changeItems (Json.keysOfType type) Json.unboxedOfRecord i)

theorem RecordReader.Sees.ofBody {α : Type} {r : RecordReader α} {see : α → α} {type : String}
    (h : r.Sees Json.unboxedOfRecord see) (hkeys : Json.keysOfType type = r.keys)
    (body : RecordBody) : r.ofBody (body.unboxed type) = (r.ofBody body).map see := by
  cases body with
  | members m => exact h.ofMembers m
  | items i =>
    dsimp only [RecordBody.unboxed, RecordReader.ofBody]
    rw [hkeys]
    exact h.ofItems i

theorem required_map {α β : Type} (key : String) (f : α → β) (a? : Option α) :
    required key (a?.map f) = (required key a?).map f := by
  cases a? <;> rfl

namespace Record

/-- Values without boxes give the record without boxes, whatever its type. -/
theorem ofBody_unboxed (type : String) (body : RecordBody) :
    ofBody type (body.unboxed type) = (ofBody type body).map unboxed := by
  unfold ofBody
  split
  · rw [nameReader_sees.ofBody rfl]
    exact map_bind_eq_map fun _ => bind_eq_map fun _ => rfl
  · rw [nameReader_sees.ofBody rfl]
    exact map_bind_eq_map fun _ => bind_eq_map fun _ => rfl
  · rw [nameReader_sees.ofBody rfl]
    exact map_bind_eq_map fun _ => bind_eq_map fun _ => rfl
  · rw [MessageRecord.sees.ofBody rfl]
    exact map_bind_eq_map fun _ => bind_eq_map fun _ => rfl
  · rw [StructRecord.sees.ofBody rfl]
    refine map_bind_eq_map fun r => bind_eq_map fun _ => ?_
    dsimp only [StructRecord.unboxed]
    rw [required_map]
    exact map_bind_eq_map fun _ => rfl
  · rw [FieldRecord.sees_ofRecord.ofBody rfl]
    exact map_bind_eq_map fun _ => rfl
  · rw [PrerequisiteRecord.sees.ofBody rfl]
    exact map_bind_eq_map fun _ => rfl
  · -- A type that nobody knows has no keys, so nothing is changed in the array form.
    have hkeys : Json.keysOfType type = [] := by
      unfold Json.keysOfType
      split <;> first | contradiction | rfl
    cases body with
    | members m => rfl
    | items items =>
      dsimp only [RecordBody.unboxed]
      rw [hkeys, Json.changeItems, List.zipWith_nil_left, List.nil_append, List.length_nil,
        List.drop_zero]
      cases items <;> rfl

/-- **A value without boxes gives the record without boxes.** -/
theorem ofJson_unboxed (v : Json) : ofJson v.unboxed = (ofJson v).map unboxed := by
  cases v with
  | object members =>
    have htype : Keyed.find? (Json.changeMembers Json.unboxedOfRecord members) "type" =
        Keyed.find? members "type" := by
      rw [Json.find?_changeMembers]
      exact Option.map_id' ..
    dsimp only [Json.unboxed, ofJson]
    rw [htype]
    exact bind_eq_map fun _ => bind_eq_map fun type => ofBody_unboxed type (.members members)
  | array items =>
    cases items with
    | nil => rfl
    | cons t items =>
      cases t with
      | string type => exact ofBody_unboxed type (.items items)
      | _ => rfl
  | _ => rfl

end Record

/-! ## Declarations -/

/-- The field without the box of its format. -/
def FieldUse.unboxed : FieldUse → FieldUse
  | .inline f => .inline (f.restyle .unboxed)
  | .shared name own? => .shared name own?

/-- The declarations without the boxes of formats. -/
def Declarations.unboxed (d : Declarations) : Declarations :=
  { d with messages := d.messages.map (·.mapFields FieldUse.unboxed)
           structs := d.structs.map (·.mapFields FieldUse.unboxed)
           fragments := d.fragments.map fun t => ⟨t.name, t.value.restyle .unboxed⟩ }

theorem FieldRecord.declared_unboxed (r : FieldRecord) (list : Place) :
    r.unboxed.declared list = (r.declared list).map (DeclaredField.restyle .unboxed) := by
  have hformat : ∀ place : Place, place.require (.missing "format") r.unboxed.format? =
      (place.require (.missing "format") r.format?).map Format.unboxedTag := fun place => by
    dsimp only [unboxed]
    cases r.format? <;> rfl
  unfold declared
  refine bind_eq_map fun name => ?_
  dsimp only
  rw [hformat]
  refine map_bind_eq_map fun format => bind_eq_map fun tag? => bind_eq_map fun mandatory => ?_
  exact bind_eq_map fun _ => rfl

theorem FieldRecord.use_unboxed (list : Place) (r : FieldRecord) :
    r.unboxed.use list = (r.use list).map FieldUse.unboxed := by
  have hinline : (do return FieldUse.inline (← r.unboxed.declared list)) =
      (do return FieldUse.inline (← r.declared list)).map FieldUse.unboxed := by
    rw [declared_unboxed]
    exact map_bind_eq_map fun _ => rfl
  have hformat : r.unboxed.format? = r.format?.map Format.unboxedTag := rfl
  have hname : r.unboxed.commonRef? = r.commonRef? := rfl
  have hprerequisites : r.unboxed.prerequisites? = r.prerequisites? := rfl
  rw [use, use, hformat, hname, hprerequisites]
  cases r.format? with
  | some format => exact hinline
  | none =>
    cases r.commonRef? with
    | none => exact hinline
    | some name =>
      cases r.prerequisites? with
      | none => rfl
      | some ps => exact bind_eq_map fun _ => rfl

theorem MessageRecord.list?_unboxed (r : MessageRecord) (kind : ContainerKind) :
    r.unboxed.list? kind = (r.list? kind).map (List.map FieldRecord.unboxed) := by
  unfold list? unboxed
  rw [List.find?_map, Option.bind_map, Option.map_bind]
  rfl

theorem MessageRecord.container?_unboxed (r : MessageRecord) (name : String)
    (kind : ContainerKind) :
    r.unboxed.container? name kind =
      (r.container? name kind).map (Option.map fun c => (c.1, c.2.map FieldUse.unboxed)) := by
  unfold container?
  rw [list?_unboxed]
  cases r.list? kind with
  | none => rfl
  | some fields =>
    dsimp only [Option.map_some]
    rw [mapM_map_eq_map (FieldRecord.use_unboxed (.container name kind))]
    exact map_bind_eq_map fun _ => rfl

theorem MessageRecord.declared_unboxed (r : MessageRecord) (name : String) :
    r.unboxed.declared name =
      (r.declared name).map (DeclaredMessage.mapFields FieldUse.unboxed) := by
  have hcontainers : ContainerKind.all.mapM (r.unboxed.container? name) =
      (ContainerKind.all.mapM (r.container? name)).map
        (List.map (Option.map fun c => (c.1, c.2.map FieldUse.unboxed))) :=
    mapM_eq_map (r.container?_unboxed name) ContainerKind.all
  unfold declared
  refine bind_eq_map fun text => bind_eq_map fun n => ?_
  split
  · rw [hcontainers]
    refine map_bind_eq_map fun containers => congrArg Except.ok ?_
    rw [DeclaredMessage.mapFields, List.filterMap_map, List.map_filterMap]
    rfl
  · rfl

namespace Declarations

variable (d : Declarations)

/-- A record without boxes adds the declaration without boxes. -/
theorem add_unboxed (place : Place) (r : Record) :
    d.unboxed.add place r.unboxed = (d.add place r).map unboxed := by
  cases r with
  | metadata kind name =>
    have hnames : d.unboxed.names = d.names := rfl
    dsimp only [Record.unboxed, add]
    rw [hnames]
    cases d.names.get? kind <;> rfl
  | message name r =>
    dsimp only [Record.unboxed, add]
    rw [MessageRecord.declared_unboxed]
    refine map_bind_eq_map fun m => congrArg Except.ok ?_
    simp [unboxed]
  | struct name contents =>
    dsimp only [Record.unboxed, add]
    rw [mapM_map_eq_map (FieldRecord.use_unboxed (.struct name))]
    refine map_bind_eq_map fun members => congrArg Except.ok ?_
    simp [unboxed, DeclaredStruct.mapFields]
  | fragment r =>
    dsimp only [Record.unboxed, add]
    refine bind_eq_map fun name => ?_
    rw [FieldRecord.declared_unboxed]
    refine map_bind_eq_map fun f => congrArg Except.ok ?_
    simp [unboxed]
  | sharedPrerequisite r => exact bind_eq_map fun name => bind_eq_map fun p => rfl
  | unknown type => rfl

theorem addItems_unboxed (number : Nat) (items : List Json) :
    d.unboxed.addItems number (items.map Json.unboxed) =
      (d.addItems number items).map unboxed := by
  induction items generalizing d number with
  | nil => rfl
  | cons item items ih =>
    rw [List.map_cons, addItems, addItems, Record.ofJson_unboxed]
    cases Record.ofJson item with
    | error fault => rfl
    | ok r =>
      dsimp only [Except.map]
      rw [add_unboxed]
      exact map_bind_eq_map fun d => ih d (number + 1)

/-! ## Templates put in place -/

theorem fragment?_unboxed (name : String) :
    d.unboxed.fragment? name = (d.fragment? name).map (DeclaredField.restyle .unboxed) := by
  unfold fragment? unboxed
  rw [List.find?_map, Option.map_map, Option.map_map]
  rfl

/-- The format of a template is known without its box exactly if it is known; one that is not has no
box. -/
theorem checkFragments_unboxed (list : List (Shared (DeclaredField PrerequisiteUse)))
    (seen : List String) :
    checkFragments seen (list.map fun t => ⟨t.name, t.value.restyle .unboxed⟩) =
      checkFragments seen list := by
  induction list generalizing seen with
  | nil => rfl
  | cons t rest ih =>
    have hknown := Restyling.unboxed.ofTag?_tag t.value.format
    rw [List.map_cons, checkFragments, checkFragments, ih, DeclaredField.format_restyle, hknown]
    cases hformat : Format.ofTag? t.value.format with
    | none => rw [Restyling.unboxed.tag_of_unknown hformat]; rfl
    | some format => rfl

theorem expandField_unboxed (place : Place) (use : FieldUse) :
    d.unboxed.expandField place use.unboxed =
      (d.expandField place use).map (DeclaredField.restyle .unboxed) := by
  cases use with
  | inline f => exact bind_eq_map fun _ => rfl
  | shared name own? =>
    dsimp only [FieldUse.unboxed, expandField]
    rw [fragment?_unboxed]
    cases d.fragment? name with
    | none => rfl
    | some f => exact bind_eq_map fun _ => rfl

theorem expandFields_unboxed (place : Place) (uses : List FieldUse) :
    d.unboxed.expandFields place (uses.map FieldUse.unboxed) =
      (d.expandFields place uses).map (List.map (DeclaredField.restyle .unboxed)) :=
  mapM_map_eq_map (d.expandField_unboxed place) uses

theorem expandStruct_unboxed (s : DeclaredStruct FieldUse) :
    d.unboxed.expandStruct (s.mapFields FieldUse.unboxed) =
      (d.expandStruct s).map (DeclaredStruct.mapFields (DeclaredField.restyle .unboxed)) := by
  unfold expandStruct
  dsimp only [DeclaredStruct.mapFields]
  rw [expandFields_unboxed]
  exact map_bind_eq_map fun _ => rfl

theorem expandContainer_unboxed (message : String) (c : ContainerKind × List FieldUse) :
    d.unboxed.expandContainer message (c.1, c.2.map FieldUse.unboxed) =
      (d.expandContainer message c).map
        fun c => (c.1, c.2.map (DeclaredField.restyle .unboxed)) := by
  unfold expandContainer
  dsimp only
  rw [expandFields_unboxed]
  exact map_bind_eq_map fun _ => rfl

theorem expandMessage_unboxed (m : DeclaredMessage FieldUse) :
    d.unboxed.expandMessage (m.mapFields FieldUse.unboxed) =
      (d.expandMessage m).map (DeclaredMessage.mapFields (DeclaredField.restyle .unboxed)) := by
  unfold expandMessage
  dsimp only [DeclaredMessage.mapFields]
  rw [mapM_map_eq_map (d.expandContainer_unboxed m.name)]
  exact map_bind_eq_map fun _ => rfl

/-- **Templates are put in place without boxes as they are with them.** -/
theorem expand_unboxed : d.unboxed.expand = d.expand.map (Expanded.restyle .unboxed) := by
  have hstructs : d.unboxed.structs.mapM d.unboxed.expandStruct =
      (d.structs.mapM d.expandStruct).map
        (List.map (DeclaredStruct.mapFields (DeclaredField.restyle .unboxed))) :=
    mapM_map_eq_map d.expandStruct_unboxed d.structs
  have hmessages : d.unboxed.messages.mapM d.unboxed.expandMessage =
      (d.messages.mapM d.expandMessage).map
        (List.map (DeclaredMessage.mapFields (DeclaredField.restyle .unboxed))) :=
    mapM_map_eq_map d.expandMessage_unboxed d.messages
  have hfragments : checkFragments [] d.unboxed.fragments = checkFragments [] d.fragments :=
    checkFragments_unboxed d.fragments []
  unfold expand
  rw [hfragments, hstructs, hmessages]
  refine bind_eq_map fun _ => bind_eq_map fun _ => ?_
  exact map_bind_eq_map fun _ => map_bind_eq_map fun _ => rfl

end Declarations

end WirePlan
