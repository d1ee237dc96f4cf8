import WirePlan.Proofs.Plan.Cycles

/-!
# How deep structs nest

Encoding and decoding go into structs to a depth that is the number of structs of the plan. That is
enough: on the way into a struct of a plan, from one that embeds the next to the last one within,
no struct is met twice, as none embeds itself, and all of them are in the plan
(`Plan.shallow_ofSource`).
-/

namespace WirePlan

/-- On the way into a struct of this name there are no more than so many structs, itself one of
them. -/
def StructLayouts.Shallow (structs : StructLayouts) : (depth : Nat) → (name : String) → Prop
  | 0, name => structs name = none
  | depth + 1, name => ∀ layout, structs name = some layout → ∀ f ∈ layout.members,
      ∀ t, f.structType? = some t → Shallow structs depth t

/-- A struct that is there is met on the way into it. -/
theorem StructLayouts.Shallow.exists_eq_succ {structs : StructLayouts} {depth : Nat}
    {name : String} (h : structs.Shallow depth name) {layout : StructLayout}
    (hlayout : structs name = some layout) : ∃ inner, depth = inner + 1 ∧
      ∀ f ∈ layout.members, ∀ t, f.structType? = some t → structs.Shallow inner t := by
  cases depth with
  | zero => cases h.symm.trans hlayout
  | succ inner => exact ⟨inner, rfl, h layout hlayout⟩

namespace Plan

variable {schema : Schema} {plan : Plan} (hacyclic : Acyclic schema.Embeds)
  (h : ofSchema schema = .ok plan)

include h

/-- A struct of the plan embeds what its members are made of. -/
theorem embeds_of_struct? {name : String} {layout : StructLayout}
    (hlayout : plan.struct? name = some layout) {f : PlacedField} (hf : f ∈ layout.members)
    {t : String} (htype : f.structType? = some t) : schema.Embeds name t := by
  obtain ⟨hstructs, -, -⟩ := laidOut_ofSchema h
  obtain ⟨rfl, ⟨s, hs, -, hlaid⟩, -⟩ := hstructs name layout hlayout
  exact Schema.embeds_of_wireOrder hs hlaid.order (List.mem_map_of_mem hf) htype

include hacyclic

omit h in
/-- A struct of the plan to which all structs of a path lead lengthens the path. -/
theorem path_cons {path : List String} (hnodup : path.Nodup)
    (hplan : path ⊆ plan.structs.map (·.name)) {name : String}
    (hleads : ∀ u ∈ path, Relation.TransGen schema.Embeds u name) {layout : StructLayout}
    (hlayout : plan.struct? name = some layout) :
    (name :: path).Nodup ∧ name :: path ⊆ plan.structs.map (·.name) := by
  have hmem : name ∈ plan.structs.map (·.name) :=
    List.mem_map.2 ⟨layout, List.mem_of_find?_eq_some hlayout, by
      simpa using List.find?_some hlayout⟩
  exact ⟨List.nodup_cons.2 ⟨fun hpath => hacyclic name (hleads name hpath), hnodup⟩,
    List.cons_subset.2 ⟨hmem, hplan⟩⟩

/-- Behind a path that leads to the struct of this name there is room for the structs that are not
on it. The induction is on how many these are. -/
theorem shallow_of_path {depth : Nat} {path : List String} (hnodup : path.Nodup)
    (hplan : path ⊆ plan.structs.map (·.name))
    (hroom : plan.structs.length ≤ path.length + depth) {name : String}
    (hleads : ∀ u ∈ path, Relation.TransGen schema.Embeds u name) :
    StructLayouts.Shallow plan.struct? depth name := by
  induction depth generalizing path name with
  | zero =>
    cases hlayout : plan.struct? name with
    | none => exact hlayout
    | some layout =>
      obtain ⟨hnodup', hplan'⟩ := path_cons hacyclic hnodup hplan hleads hlayout
      have hle := (hnodup'.subperm hplan').length_le
      rw [List.length_map, List.length_cons] at hle
      omega
  | succ depth ih =>
    intro layout hlayout f hf t htype
    obtain ⟨hnodup', hplan'⟩ := path_cons hacyclic hnodup hplan hleads hlayout
    have hembeds := embeds_of_struct? h hlayout hf htype
    refine ih hnodup' hplan' (by rw [List.length_cons]; omega) ?_
    exact List.forall_mem_cons.2 ⟨.single hembeds, fun u hu => (hleads u hu).tail hembeds⟩

end Plan

/-- **The structs of a plan nest no deeper than there are structs.** -/
theorem Plan.shallow_ofSource {source : String} {options : Options} {plan : Plan}
    (h : ofSource source options = .ok plan) (name : String) :
    StructLayouts.Shallow plan.struct? plan.structs.length name := by
  rw [Plan.ofSource_eq] at h
  obtain ⟨schema, hschema, h⟩ := bind_eq_ok.1 h
  obtain ⟨declarations, -, hschema⟩ := bind_eq_ok.1 hschema
  obtain ⟨expanded, -, hschema⟩ := bind_eq_ok.1 hschema
  have hacyclic := acyclic_embeds (Schema.checked_ofExpanded hschema).1
    (Schema.linked_ofExpanded hschema).2 h
  exact shallow_of_path hacyclic h .nil (List.nil_subset _) (by simp) fun _ hu => nomatch hu

end WirePlan
