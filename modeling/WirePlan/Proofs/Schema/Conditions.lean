import WirePlan.Plan.Generation
import WirePlan.Proofs.Plan.OfSchema
import WirePlan.Proofs.Schema.Expansion
import WirePlan.Proofs.Schema.RecordOrder
import WirePlan.Proofs.Schema.WellFormed

/-!
# Where prerequisites come from

Every prerequisite is made from a record of one (`PrerequisiteRecord.declared`). Reading only puts
them where they stand (`Declarations.everyPrerequisite_ofSource`), templates are replaced by what
they hold, and checking and planning keep them as they are. So what holds of every prerequisite that
a record declares holds of every prerequisite of a plan (`Plan.forall_prerequisites_ofSource`).
-/

namespace WirePlan

variable {P : Prerequisite → Prop}

/-- The property holds of the prerequisite, if it stands by itself. -/
def PrerequisiteUse.Satisfies (P : Prerequisite → Prop) : PrerequisiteUse → Prop
  | .inline p => P p
  | .shared _ => True

/-- The property holds of the prerequisites that the field gives by themselves. -/
def FieldUse.EveryPrerequisite (P : Prerequisite → Prop) : FieldUse → Prop
  | .inline f => ∀ p ∈ f.prerequisites, p.Satisfies P
  | .shared _ own? => ∀ p ∈ own?.getD [], p.Satisfies P

/-- The property holds of every prerequisite that is declared, be it of a field, of a template for
fields or a template itself. -/
structure Declarations.EveryPrerequisite (P : Prerequisite → Prop) (d : Declarations) : Prop where
  members : ∀ s ∈ d.structs, ∀ f ∈ s.members, f.EveryPrerequisite P
  fields : ∀ m ∈ d.messages, ∀ c ∈ m.containers, ∀ f ∈ c.2, f.EveryPrerequisite P
  fragments : ∀ t ∈ d.fragments, ∀ p ∈ t.value.prerequisites, p.Satisfies P
  prerequisites : ∀ t ∈ d.prerequisites, P t.value

/-! ## From records to declarations -/

section Reading

variable (hP : ∀ (r : PrerequisiteRecord) (place : Place) (p : Prerequisite),
  r.declared place = .ok p → P p)

include hP

theorem PrerequisiteRecord.satisfies_of_use {r : PrerequisiteRecord} {place : Place}
    {u : PrerequisiteUse} (h : r.use place = .ok u) : u.Satisfies P := by
  unfold use at h
  split at h
  · cases h
    trivial
  · obtain ⟨p, hp, h⟩ := bind_eq_ok.1 h
    cases pure_eq_ok.1 h
    exact hP r place p hp

/-- So it is for a list of them. -/
theorem PrerequisiteRecord.satisfies_of_mapM_use {rs : List PrerequisiteRecord} {place : Place}
    {us : List PrerequisiteUse} (h : rs.mapM (fun r => r.use place) = .ok us) :
    ∀ u ∈ us, u.Satisfies P := by
  intro u hu
  obtain ⟨r, -, hr⟩ := exists_of_mem_right (mapM_eq_ok.1 h) hu
  exact satisfies_of_use hP hr

namespace FieldRecord

variable {r : FieldRecord} {list : Place}

theorem satisfies_of_declared {f : DeclaredField PrerequisiteUse} (h : r.declared list = .ok f) :
    ∀ p ∈ f.prerequisites, p.Satisfies P := by
  obtain ⟨name, -, h⟩ := bind_eq_ok.1 h
  obtain ⟨format, -, h⟩ := bind_eq_ok.1 h
  obtain ⟨tag?, -, h⟩ := bind_eq_ok.1 h
  obtain ⟨mandatory, -, h⟩ := bind_eq_ok.1 h
  obtain ⟨prerequisites, hprerequisites, h⟩ := bind_eq_ok.1 h
  cases pure_eq_ok.1 h
  exact PrerequisiteRecord.satisfies_of_mapM_use hP hprerequisites

theorem everyPrerequisite_of_use {u : FieldUse} (h : r.use list = .ok u) :
    u.EveryPrerequisite P := by
  unfold use at h
  split at h
  · split at h
    · cases h
      exact fun _ hp => nomatch hp
    · obtain ⟨own, hown, h⟩ := bind_eq_ok.1 h
      cases pure_eq_ok.1 h
      exact PrerequisiteRecord.satisfies_of_mapM_use hP hown
  · obtain ⟨f, hf, h⟩ := bind_eq_ok.1 h
    cases pure_eq_ok.1 h
    exact satisfies_of_declared hP hf

/-- So it is for the fields of a list. -/
theorem everyPrerequisite_of_mapM_use {rs : List FieldRecord} {us : List FieldUse}
    (h : rs.mapM (fun r => r.use list) = .ok us) : ∀ u ∈ us, u.EveryPrerequisite P := by
  intro u hu
  obtain ⟨r, -, hr⟩ := exists_of_mem_right (mapM_eq_ok.1 h) hu
  exact everyPrerequisite_of_use hP hr

end FieldRecord

theorem MessageRecord.everyPrerequisite_of_container? {r : MessageRecord} {name : String}
    {kind : ContainerKind} {c : ContainerKind × List FieldUse}
    (h : r.container? name kind = .ok (some c)) : ∀ f ∈ c.2, f.EveryPrerequisite P := by
  unfold container? at h
  split at h
  · cases h
  · obtain ⟨fields, hfields, h⟩ := bind_eq_ok.1 h
    cases pure_eq_ok.1 h
    exact FieldRecord.everyPrerequisite_of_mapM_use hP hfields

theorem MessageRecord.everyPrerequisite_of_declared {r : MessageRecord} {name : String}
    {m : DeclaredMessage FieldUse} (h : r.declared name = .ok m) :
    ∀ c ∈ m.containers, ∀ f ∈ c.2, f.EveryPrerequisite P := by
  unfold declared at h
  dsimp only at h
  obtain ⟨text, -, h⟩ := bind_eq_ok.1 h
  obtain ⟨n, -, h⟩ := bind_eq_ok.1 h
  split at h
  · obtain ⟨containers, hcontainers, h⟩ := bind_eq_ok.1 h
    cases pure_eq_ok.1 h
    intro c hc
    obtain ⟨c?, hc?, rfl⟩ := List.mem_filterMap.1 hc
    obtain ⟨kind, -, hkind⟩ := exists_of_mem_right (mapM_eq_ok.1 hcontainers) hc?
    exact everyPrerequisite_of_container? hP hkind
  · cases h

omit hP in
theorem Declarations.everyPrerequisite_empty : ({} : Declarations).EveryPrerequisite P where
  members := List.forall_mem_nil _
  fields := List.forall_mem_nil _
  fragments := List.forall_mem_nil _
  prerequisites := List.forall_mem_nil _

/-- A record declares prerequisites from records of them. -/
theorem Record.Declares.everyPrerequisite {r : Record} {part : Declarations}
    (h : r.Declares part) : part.EveryPrerequisite P := by
  have hrest := Declarations.everyPrerequisite_empty (P := P)
  cases h with
  | metadata => exact ⟨hrest.members, hrest.fields, hrest.fragments, hrest.prerequisites⟩
  | message hm =>
    refine ⟨hrest.members, fun m hmem => ?_, hrest.fragments, hrest.prerequisites⟩
    cases List.mem_singleton.1 hmem
    exact MessageRecord.everyPrerequisite_of_declared hP hm
  | struct hmembers =>
    refine ⟨fun s hs => ?_, hrest.fields, hrest.fragments, hrest.prerequisites⟩
    cases List.mem_singleton.1 hs
    exact FieldRecord.everyPrerequisite_of_mapM_use hP hmembers
  | fragment _ hf =>
    refine ⟨hrest.members, hrest.fields, fun t ht => ?_, hrest.prerequisites⟩
    cases List.mem_singleton.1 ht
    exact FieldRecord.satisfies_of_declared hP hf
  | sharedPrerequisite _ hp =>
    refine ⟨hrest.members, hrest.fields, hrest.fragments, fun t ht => ?_⟩
    cases List.mem_singleton.1 ht
    exact hP _ _ _ hp

omit hP in
theorem Declarations.EveryPrerequisite.append {d part : Declarations}
    (h : d.EveryPrerequisite P) (hpart : part.EveryPrerequisite P) :
    (d.append part).EveryPrerequisite P where
  members := List.forall_mem_append.2 ⟨h.members, hpart.members⟩
  fields := List.forall_mem_append.2 ⟨h.fields, hpart.fields⟩
  fragments := List.forall_mem_append.2 ⟨h.fragments, hpart.fragments⟩
  prerequisites := List.forall_mem_append.2 ⟨h.prerequisites, hpart.prerequisites⟩

theorem Declarations.everyPrerequisite_addItems {items : List Json} {d e : Declarations}
    {number : Nat} (hd : d.EveryPrerequisite P) (h : d.addItems number items = .ok e) :
    e.EveryPrerequisite P := by
  induction items generalizing d number with
  | nil =>
    cases h
    exact hd
  | cons item items ih =>
    obtain ⟨r, part, -, hpart, -, h⟩ := addItems_cons_eq_ok.1 h
    exact ih (hd.append (hpart.everyPrerequisite hP)) h

/-- **Sources declare no prerequisite but from records of them.** -/
theorem Declarations.everyPrerequisite_ofSource {source : String} {d : Declarations}
    (h : ofSource source = .ok d) : d.EveryPrerequisite P := by
  obtain ⟨records, -, hrecords⟩ := bind_eq_ok.1 h
  exact everyPrerequisite_addItems hP everyPrerequisite_empty hrecords

end Reading

/-! ## From declarations to plans -/

namespace Declarations

variable {d : Declarations} {place : Place} (hd : d.EveryPrerequisite P)

include hd

theorem satisfies_of_expandPrerequisite {u : PrerequisiteUse} {p : Prerequisite}
    (hu : u.Satisfies P) (h : d.expandPrerequisite place u = .ok p) : P p := by
  cases u with
  | inline q =>
    cases h
    exact hu
  | shared name =>
    obtain ⟨t, ht, rfl⟩ := Option.map_eq_some_iff.1 (expandPrerequisite_shared_eq_ok.1 h)
    exact hd.prerequisites t (List.mem_of_find?_eq_some ht)

theorem satisfies_of_expandPrerequisites {us : List PrerequisiteUse} {ps : List Prerequisite}
    (hus : ∀ u ∈ us, u.Satisfies P) (h : d.expandPrerequisites place us = .ok ps) :
    ∀ p ∈ ps, P p := by
  intro p hp
  obtain ⟨u, hu, hexpand⟩ := exists_of_mem_right (mapM_eq_ok.1 h) hp
  exact satisfies_of_expandPrerequisite hd (hus u hu) hexpand

/-- A field with its template in place has the template's prerequisites or its own. -/
theorem satisfies_of_expandField {u : FieldUse} {f : ExpandedField} (hu : u.EveryPrerequisite P)
    (h : d.expandField place u = .ok f) : ∀ p ∈ f.prerequisites, P p := by
  cases u with
  | inline g =>
    obtain ⟨ps, hps, rfl⟩ := expandField_inline_eq_ok.1 h
    exact satisfies_of_expandPrerequisites hd hu hps
  | shared name own? =>
    obtain ⟨g, ps, hg, hps, rfl⟩ := expandField_shared_eq_ok.1 h
    obtain ⟨t, ht, rfl⟩ := Option.map_eq_some_iff.1 hg
    cases own? with
    | none =>
      exact satisfies_of_expandPrerequisites hd (hd.fragments t (List.mem_of_find?_eq_some ht)) hps
    | some own => exact satisfies_of_expandPrerequisites hd hu hps

theorem satisfies_of_expand {e : Expanded} (h : d.expand = .ok e) :
    ∀ m ∈ e.messages, ∀ c ∈ m.containers, ∀ f ∈ c.2, ∀ p ∈ f.prerequisites, P p := by
  obtain ⟨-, -, -, -, hmessages, -⟩ := expand_eq_ok.1 h
  intro m hm c hc f hf
  obtain ⟨m', hm', hmessage⟩ := exists_of_mem_right (mapM_eq_ok.1 hmessages) hm
  obtain ⟨containers, hcontainers, h⟩ := bind_eq_ok.1 hmessage
  cases pure_eq_ok.1 h
  obtain ⟨c', hc', hcontainer⟩ := exists_of_mem_right (mapM_eq_ok.1 hcontainers) hc
  obtain ⟨fields, hfields, h⟩ := bind_eq_ok.1 hcontainer
  cases pure_eq_ok.1 h
  obtain ⟨u, hu, hfield⟩ := exists_of_mem_right (mapM_eq_ok.1 hfields) hf
  exact satisfies_of_expandField hd (hd.fields m' hm' c' hc' u hu) hfield

end Declarations

/-- **Plans have no prerequisite but from records of them.** What holds of every prerequisite that a
record declares holds of every prerequisite of the plan of a source. -/
theorem Plan.forall_prerequisites_ofSource
    (hP : ∀ (r : PrerequisiteRecord) (place : Place) (p : Prerequisite),
      r.declared place = .ok p → P p)
    {source : String} {options : Options} {plan : Plan} (h : ofSource source options = .ok plan) :
    ∀ m ∈ plan.messages, ∀ c ∈ m.containers, ∀ f ∈ c.fields, ∀ p ∈ f.prerequisites, P p := by
  rw [Plan.ofSource_eq] at h
  obtain ⟨schema, hschema, h⟩ := bind_eq_ok.1 h
  obtain ⟨declarations, hdeclarations, hschema⟩ := bind_eq_ok.1 hschema
  obtain ⟨e, hexpand, hschema⟩ := bind_eq_ok.1 hschema
  have hexpanded := Declarations.satisfies_of_expand
    (Declarations.everyPrerequisite_ofSource hP hdeclarations) hexpand
  obtain ⟨-, htypes⟩ := Schema.wellFormed_of_ofExpanded hschema
  obtain ⟨-, -, hmessages⟩ := laidOut_ofSchema h
  intro m hm c hc f hf p hp
  -- The field is laid out from a typed one, which is typed from a declared one.
  obtain ⟨typed, htyped, hmessage⟩ := exists_of_mem_right hmessages hm
  obtain ⟨container, hcontainer, hlaid⟩ := exists_of_mem_right hmessage.containers hc
  have hfield := WireOrder.mem_of_wireOrder hlaid.fields.order (List.mem_map_of_mem hf)
  obtain ⟨m', hm', hmessage'⟩ := exists_of_mem_right htypes.messages htyped
  obtain ⟨c', hc', hcontainer'⟩ := exists_of_mem_right hmessage'.containers hcontainer
  obtain ⟨f', hf', hfield'⟩ := exists_of_mem_right hcontainer'.2 hfield
  exact hexpanded m' hm' c' hc' f' hf' p (hfield'.prerequisites ▸ hp)

end WirePlan
