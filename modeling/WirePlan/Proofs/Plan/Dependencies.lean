import WirePlan.Proofs.Plan.References
import WirePlan.Proofs.Plan.Source
import WirePlan.Proofs.Schema.Linked

/-!
# Fields stand behind all they need

A list of a plan holds the declared fields, rearranged so that whatever a field needs stands before
it: what counts its elements, what its prerequisites read, and what its offset looks up
(`Arranged`). What a field names was checked in the declared list (`Field.Linked`), the wire order
puts it before the field (`Field.InOrder`), and the walk over the list lets offsets look back only
(`PlacedFrom.mem_take_of_reference`). Every list of the plan of a source is arranged, and the plan
has every declared struct, once, in declaration order (`Plan.arranged_ofSource`).
-/

namespace WirePlan

/-- The fields are the declared ones, each behind all that it needs. Numbers without sign count
elements, and structs that fields name are among those given. -/
structure Arranged (structNames declared : List String) (fields : List PlacedField) : Prop where
  nodup : (fields.map (·.name)).Nodup
  perm : (fields.map (·.name)).Perm declared
  counter : ∀ (i : Nat) (f : PlacedField) (count : String), fields[i]? = some f →
    f.sizeField? = some count →
    ∃ g ∈ fields.take i, g.name = count ∧ ∃ k : IntFormat, g.format = .int k ∧ k.isSigned = false
  sibling : ∀ (i : Nat) (f : PlacedField), fields[i]? = some f → ∀ p ∈ f.prerequisites,
    ∃ g ∈ fields.take i, g.name = p.sibling
  reference : ∀ (i : Nat) (f : PlacedField), fields[i]? = some f → ∀ t ∈ f.offset.terms,
    ∀ r ∈ t.references, ∃ g ∈ fields.take i, g.name = r
  struct : ∀ f ∈ fields, ∀ t, f.structType? = some t → t ∈ structNames

/-- The layout of a declared container, arranged. -/
def ContainerLayout.Arranges (structNames : List String)
    (declared : ContainerKind × List ExpandedField) (layout : ContainerLayout) : Prop :=
  layout.kind = declared.1 ∧ Arranged structNames (declared.2.map (·.name)) layout.fields

/-- The layout of a declared message, its containers arranged. -/
def MessageLayout.Arranges (structNames : List String) (declared : DeclaredMessage ExpandedField)
    (layout : MessageLayout) : Prop :=
  layout.name = declared.name ∧
    List.Forall₂ (ContainerLayout.Arranges structNames) declared.containers layout.containers

/-- The layout of a declared struct, arranged. -/
def StructLayout.Arranges (structNames : List String) (declared : DeclaredStruct ExpandedField)
    (layout : StructLayout) : Prop :=
  layout.name = declared.name ∧
    Arranged structNames (declared.members.map (·.name)) layout.members

/-- The plan has the declared messages and structs in declaration order, no struct twice, and every
list of it is arranged. -/
structure Plan.Arranges (e : Expanded) (plan : Plan) : Prop where
  structs : List.Forall₂ (StructLayout.Arranges (plan.structs.map (·.name))) e.structs plan.structs
  nodup : (plan.structs.map (·.name)).Nodup
  messages : List.Forall₂ (MessageLayout.Arranges (plan.structs.map (·.name))) e.messages
    plan.messages

/-- **A linked list that is laid out is arranged.** -/
theorem LaidOut.arranged {structs : StructLayouts} {header : Nat} {declared : List Field}
    {place : Place} {layouts : List PlacedField} {endOffset : Offset}
    (h : LaidOut structs header declared place layouts endOffset) (hstructs : structs.WellFormed)
    (hchecked : CheckedList declared) {structNames : List String}
    (hlinked : ∀ f ∈ declared, f.Linked structNames declared) :
    Arranged structNames (declared.map (·.name)) layouts := by
  have hplaced := h.wellPlaced hchecked
  have hdeclared : ∀ f ∈ layouts, f.toField ∈ declared := fun f hf =>
    WireOrder.mem_of_wireOrder h.order (List.mem_map_of_mem hf)
  have hbefore : ∀ (i : Nat) (f : PlacedField), layouts[i]? = some f → ∀ d ∈ f.dependencies,
      ∃ g ∈ layouts.take i, g.name = d := by
    intro i f hf d hd
    have hfield : (layouts.map (·.toField))[i]? = some f.toField := by
      rw [List.getElem?_map, hf]
      rfl
    obtain ⟨g, hg, hname⟩ :=
      (hplaced.inOrder.mem_take_of_dependency hfield hd).resolve_left List.not_mem_nil
    rw [← List.map_take] at hg
    obtain ⟨k, hk, rfl⟩ := List.mem_map.1 hg
    exact ⟨k, hk, hname⟩
  constructor
  · exact hplaced.nodup
  · have hperm := (WireOrder.perm_of_wireOrder h.order).map (·.name)
    rwa [List.map_map] at hperm
  · intro i f count hf hcount
    have hdep : count ∈ f.dependencies :=
      List.mem_append_left _ (Option.mem_toList.2 hcount)
    obtain ⟨g, hg, rfl⟩ := hbefore i f hf count hdep
    have hsibling := hdeclared g (List.mem_of_mem_take hg)
    have hfield := hlinked f.toField (hdeclared f (List.mem_of_getElem? hf))
    exact ⟨g, hg, rfl, hfield.int_of_sizeField hchecked.nodup hsibling hcount⟩
  · intro i f hf p hp
    exact hbefore i f hf p.sibling (List.mem_append_right _ (List.mem_map_of_mem hp))
  · intro i f hf t ht r hr
    have hstart : ∀ t ∈ ({} : Offset).terms, ∀ r ∈ t.references, r ∈ ([] : List String) :=
      fun _ ht => nomatch ht
    exact (hplaced.placed.mem_take_of_reference hstructs hplaced.inOrder hplaced.sized hstart hf ht
      hr).resolve_left List.not_mem_nil
  · intro f hf t ht
    exact (hlinked f.toField (hdeclared f hf)).mem_of_structType ht

/-- The plan of a schema that keeps declarations, checked and linked, arranges them. -/
theorem Plan.arranged_ofSchema {e : Expanded} {schema : Schema} {plan : Plan}
    (hkeeps : schema.Keeps e) (hchecked : schema.Checked) (hlinked : schema.Linked)
    (h : ofSchema schema = .ok plan) : plan.Arranges e := by
  have hwellFormed := (wellFormed_ofSchema hchecked h).structs
  obtain ⟨hfound, hstructs, hmessages⟩ := laidOut_ofSchema h
  have hnames : plan.structs.map (·.name) = schema.structs.map (·.name) :=
    map_eq_of_forall₂ (hstructs.imp fun t layout ht => (hfound t.name layout ht).1)
  constructor
  · refine (forall₂_through hkeeps.structs hstructs).imp ?_
    rintro s layout ⟨t, ht, ⟨hname, hmembers⟩, hlayout⟩
    obtain ⟨hsame, ⟨t', ht', -, hlaid⟩, -⟩ := hfound t.name layout hlayout
    rw [hsame, Schema.struct?_of_mem hlinked.nodup ht] at ht'
    cases ht'
    refine ⟨hsame.trans hname, ?_⟩
    rw [hnames, ← hmembers]
    exact hlaid.arranged hwellFormed (hchecked.members t ht) (hlinked.members t ht)
  · exact hnames ▸ hlinked.nodup
  · refine (forall₂_through hkeeps.messages hmessages).imp ?_
    rintro declared layout ⟨m, hm, ⟨hname, hcontainers⟩, hlaidOut⟩
    refine ⟨hlaidOut.name_eq.trans hname, (forall₂_through hcontainers hlaidOut.containers).imp ?_⟩
    rintro declared layout ⟨c, hc, ⟨hkind, hfields⟩, hlaid⟩
    refine ⟨hlaid.kind_eq.trans hkind, ?_⟩
    rw [hnames, ← hfields]
    exact hlaid.fields.arranged hwellFormed (hchecked.containers m hm c hc)
      (hlinked.containers m hm c hc)

theorem Plan.arranged_ofExpanded {e : Expanded} {options : Options} {schema : Schema} {plan : Plan}
    (hschema : Schema.ofExpanded e options = .ok schema) (h : ofSchema schema = .ok plan) :
    plan.Arranges e := by
  obtain ⟨hkeeps, hlinked⟩ := Schema.linked_ofExpanded hschema
  exact arranged_ofSchema hkeeps (Schema.checked_ofExpanded hschema).1 hlinked h

/-- **Plans are arranged.** The plan of a source has the messages, containers and structs that the
source declares, templates put in place, no struct twice. In each list the declared fields stand
once, each behind what counts its elements, which is a number without sign, behind what its
prerequisites read, and behind what its offset looks up; the structs that they name are those of the
plan. -/
theorem Plan.arranged_ofSource {source : String} {options : Options} {plan : Plan}
    (h : ofSource source options = .ok plan) :
    ∃ declarations e, Declarations.ofSource source = .ok declarations ∧
      declarations.expand = .ok e ∧ plan.Arranges e := by
  rw [Plan.ofSource_eq] at h
  obtain ⟨schema, hschema, h⟩ := bind_eq_ok.1 h
  obtain ⟨declarations, hdeclarations, hschema⟩ := bind_eq_ok.1 hschema
  obtain ⟨e, hexpand, hschema⟩ := bind_eq_ok.1 hschema
  obtain ⟨hkeeps, hlinked⟩ := Schema.linked_ofExpanded hschema
  exact ⟨declarations, e, hdeclarations, hexpand,
    arranged_ofSchema hkeeps (Schema.checked_ofExpanded hschema).1 hlinked h⟩

/-- A service with one container, which declares structs before what counts and gates them. -/
def rowsSource : String :=
  "[\x7b\"type\": \"Service\", \"name\": \"S\"\x7d,
    \x7b\"type\": \"Struct\", \"name\": \"Row\", \"contents\": [
      \x7b\"name\": \"cells\", \"format\": \"guint16-array\",
        \"array-size-field\": \"width\"\x7d,
      \x7b\"name\": \"width\", \"format\": \"guint8\"\x7d]\x7d,
    \x7b\"type\": \"Message\", \"name\": \"M\", \"id\": 1, \"request\": [
      \x7b\"name\": \"rows\", \"format\": \"struct-array\", \"struct-type\": \"Row\",
        \"array-size-field\": \"count\", \"prerequisites\": [
          \x7b\"field\": \"flag\", \"operation\": \"==\", \"value\": \"1\"\x7d]\x7d,
      \x7b\"name\": \"count\", \"format\": \"guint8\"\x7d,
      \x7b\"name\": \"flag\", \"format\": \"guint8\"\x7d]\x7d]"

/-- Its plan. -/
def rowsPlan : Plan where
  service := "S"
  variant := .fixed
  messages := [⟨"M", "S", 1, [{
    kind := .request
    fields := [
      { name := "count", format := .int .u8, header := 0, offset := {}, size := .fixed 1 },
      { name := "flag", format := .int .u8, header := 0, offset := { constant := 1 }
        size := .fixed 1 },
      { name := "rows", format := .structArray, sizeField? := some "count"
        structType? := some "Row", prerequisites := [⟨"flag", .eq, .int 1⟩], header := 0
        offset := { constant := 2 }, size := .repeated "count" (.composite "Row") }]
    endOffset := ⟨2, [.bytesOf "rows"]⟩ }]⟩]
  structs := [{
    name := "Row"
    members := [
      { name := "width", format := .int .u8, header := 0, offset := {}, size := .fixed 1 },
      { name := "cells", format := .array (.int .u16), sizeField? := some "width", header := 0
        offset := { constant := 1 }, size := .repeated "width" (.fixed 2) }]
    endOffset := ⟨1, [.elements "cells" 2 "width"]⟩
    size := .composite "Row"
    usage := { arrayMember := true } }]

set_option maxRecDepth 8192 in
theorem rowsPlan_eq : Plan.ofSource rowsSource {} = .ok rowsPlan := by
  refine (Plan.ofSource_ofList _ {}).trans (toOption_eq_some.1 ?_)
  decide +kernel

/-- The plan of this source, each list of which is rearranged, is arranged. -/
theorem arranged_rows :
    Plan.ofSource rowsSource {} = .ok rowsPlan ∧
      ∃ declarations e, Declarations.ofSource rowsSource = .ok declarations ∧
        declarations.expand = .ok e ∧ rowsPlan.Arranges e :=
  ⟨rowsPlan_eq, Plan.arranged_ofSource rowsPlan_eq⟩

end WirePlan
