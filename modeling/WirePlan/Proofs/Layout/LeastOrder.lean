import WirePlan.Proofs.Layout.Counting

/-!
# The wire order is the least one

Among all orders in which every field comes behind those that it depends on, the wire order is the
one that keeps closest to the declaration: compared place by place, where it first parts from
another such order it has the field declared earlier (`WireOrder.wireOrder_least`). Of indices this
is because the first that is ready goes, so whatever else a legal order starts with was declared
later (`WireOrder.Graph.drain_least`). It passes to fields as a list in order is, by the places of
its fields in the declaration, a legal order of indices (`WireOrder.legal_of_inOrder`).
-/

namespace WirePlan

/-- The places of fields in a declared list, found by their names. -/
def Field.places (declared fields : List Field) : List Nat :=
  fields.map fun f => (declared.map (·.name)).idxOf f.name

namespace WireOrder

/-! ## Orders of indices -/

/-- Of a rising list, what is found by a test is at most as great as all that pass it. -/
theorem find?_le_of_rising {waiting : List Nat} (hrising : waiting.Pairwise (· < ·))
    {test : Nat → Bool} {i j : Nat} (hi : waiting.find? test = some i) (hj : j ∈ waiting)
    (htest : test j = true) : i ≤ j := by
  obtain ⟨-, before, after, rfl, hbefore⟩ := List.find?_eq_some_iff_append.1 hi
  rcases List.mem_append.1 hj with hj | hj
  · have hfails := hbefore j hj
    rw [htest] at hfails
    cases hfails
  rcases List.mem_cons.1 hj with rfl | hj
  · exact Nat.le_refl j
  · have hrest := (List.pairwise_append.1 hrising).2.1
    exact Nat.le_of_lt ((List.pairwise_cons.1 hrest).1 j hj)

/-- **No legal order is less.** If nothing is stuck in the end, any other legal order of what waits
has, where it first differs, an index that is greater. -/
theorem Graph.drain_least {g : Graph} {steps : Nat} {waiting : List Nat}
    (hrising : waiting.Pairwise (· < ·)) (hstuck : (g.drain steps waiting).2 = [])
    {other : List Nat} (hother : g.Legal waiting other) :
    other = (g.drain steps waiting).1 ∨ List.Lex (· < ·) (g.drain steps waiting).1 other := by
  induction steps generalizing waiting other with
  | zero =>
    rw [show waiting = [] from hstuck] at hother ⊢
    exact .inl (List.perm_nil.1 hother.perm)
  | succ steps ih =>
    cases hfind : waiting.find? (g.ready waiting) with
    | none =>
      simp only [drain, hfind] at hstuck ⊢
      rw [hstuck] at hother
      exact .inl (List.perm_nil.1 hother.perm)
    | some i =>
      simp only [drain, hfind] at hstuck ⊢
      cases other with
      | nil =>
        rw [show waiting = [] from hother] at hfind
        cases hfind
      | cons j rest =>
        obtain ⟨hj, hdeps, hrest⟩ := hother
        have hready : g.ready waiting j = true := by
          simpa [ready] using hdeps
        rcases Nat.lt_or_eq_of_le (find?_le_of_rising hrising hfind hj hready) with hlt | rfl
        · exact .inr (.rel hlt)
        · have hrising' : (waiting.erase i).Pairwise (· < ·) :=
            hrising.sublist List.erase_sublist
          rcases ih hrising' hstuck hrest with rfl | hless
          · exact .inl rfl
          · exact .inr (.cons hless)

/-- What may go as it waits does so. -/
theorem Graph.drain_of_legal {g : Graph} {waiting : List Nat} (h : g.Legal waiting waiting) :
    g.drain waiting.length waiting = (waiting, []) := by
  induction waiting with
  | nil => rfl
  | cons i rest ih =>
    obtain ⟨-, hdeps, hrest⟩ := h
    have hready : g.ready (i :: rest) i = true := by
      simpa [ready] using hdeps
    rw [List.erase_cons_head] at hrest
    simp only [List.length_cons, drain, List.find?_cons, hready, List.erase_cons_head, ih hrest]

/-! ## Orders of fields -/

variable {fields : List Field} {place : Place}

/-- The field at the place of a field of the list is that field. -/
theorem getElem?_idxOf (hnodup : (fields.map (·.name)).Nodup) {f : Field} (hf : f ∈ fields) :
    fields[(fields.map (·.name)).idxOf f.name]? = some f := by
  have hlt := List.idxOf_lt_length_of_mem (List.mem_map_of_mem (f := (·.name)) hf)
  have hname : (fields.map (·.name))[(fields.map (·.name)).idxOf f.name]? = some f.name := by
    rw [List.getElem?_eq_getElem hlt, List.getElem_idxOf]
  rw [List.getElem?_map] at hname
  obtain ⟨k, hk, hsame⟩ := Option.map_eq_some_iff.1 hname
  rw [hk, List.inj_on_of_nodup_map hnodup (List.mem_of_getElem? hk) hf hsame]

/-- Fields of the list are those at their places. -/
theorem filterMap_places (hnodup : (fields.map (·.name)).Nodup) {other : List Field}
    (hother : ∀ f ∈ other, f ∈ fields) :
    (Field.places fields other).filterMap (fun i => fields[i]?) = other := by
  rw [Field.places, List.filterMap_map]
  conv_rhs => rw [← List.filterMap_some (l := other)]
  exact List.filterMap_congr fun f hf => getElem?_idxOf hnodup (hother f hf)

/-- The places of the fields at given indices are these indices. -/
theorem places_filterMap (hnodup : (fields.map (·.name)).Nodup) {indices : List Nat}
    (hrange : ∀ i ∈ indices, i < fields.length) :
    Field.places fields (indices.filterMap fun i => fields[i]?) = indices := by
  induction indices with
  | nil => rfl
  | cons i rest ih =>
    have hi := hrange i (.head _)
    rw [List.filterMap_cons_some (List.getElem?_eq_getElem hi)]
    have hplace : (fields.map (·.name)).idxOf fields[i].name = i := by
      have hlength : i < (fields.map (·.name)).length := by simpa using hi
      have hname : fields[i].name = (fields.map (·.name))[i] := by simp
      rw [hname, hnodup.idxOf_getElem]
    rw [Field.places, List.map_cons, hplace]
    exact congrArg (i :: ·) (ih fun j hj => hrange j (.tail _ hj))

/-- The places of declared fields are all indices, rising. -/
theorem places_self (hnodup : (fields.map (·.name)).Nodup) :
    Field.places fields fields = List.range fields.length := by
  have hplaces := places_filterMap hnodup fun i (hi : i ∈ List.range fields.length) =>
    List.mem_range.1 hi
  rwa [filterMap_range] at hplaces

/-- **Fields in order go in a legal order.** The induction is on the list; a dependency that waited
would stand in the list behind the field, but its name stands before. -/
theorem legal_of_inOrder {g : Graph} (hg : fields.mapM (dependencies fields place) = .ok g)
    (hnodup : (fields.map (·.name)).Nodup) {before : List String} {other : List Field}
    (h : Field.InOrder before other) (hother : ∀ f ∈ other, f ∈ fields) {waiting : List Nat}
    (hperm : (Field.places fields other).Perm waiting) :
    g.Legal waiting (Field.places fields other) := by
  induction other generalizing before waiting with
  | nil => exact List.nil_perm.1 hperm
  | cons f rest ih =>
    have hplace := getElem?_idxOf hnodup (hother f (.head _))
    refine ⟨hperm.mem_iff.1 (.head _), fun d hd hwaits => ?_, ?_⟩
    · obtain ⟨k, hk, hname⟩ := name_mem_of_dependencies (dependencies_of hg hplace) hd
      obtain ⟨k', hk', rfl⟩ := List.mem_map.1 (hperm.mem_iff.2 hwaits)
      rw [getElem?_idxOf hnodup (hother k' hk')] at hk
      cases hk
      exact h.not_mem_before hk' (h.2.1 _ hname)
    · refine ih h.2.2 (fun g hg => hother g (.tail _ hg)) ?_
      have herase := hperm.erase ((fields.map (·.name)).idxOf f.name)
      rwa [Field.places, List.map_cons, List.erase_cons_head] at herase

/-- The fields ordered are those of a graph from which all indices have gone. -/
theorem wireOrder_eq_ok {ordered : List Field} (h : wireOrder fields place = .ok ordered) :
    ∃ g : Graph, fields.mapM (dependencies fields place) = .ok g ∧
      (g.drain fields.length (List.range fields.length)).2 = [] ∧
      ordered = (g.drain fields.length (List.range fields.length)).1.filterMap
        fun i => fields[i]? := by
  obtain ⟨g, hg, h⟩ := bind_eq_ok.1 h
  dsimp only at h
  split at h
  · next hstuck =>
    cases pure_eq_ok.1 h
    exact ⟨g, hg, List.isEmpty_iff.1 hstuck, rfl⟩
  · cases h

/-- Any other order in which fields may go is greater. -/
theorem least_of_wireOrder (hnodup : (fields.map (·.name)).Nodup) {ordered : List Field}
    (h : wireOrder fields place = .ok ordered) {other : List Field} (hperm : other.Perm fields)
    (hother : Field.InOrder [] other) :
    other = ordered ∨
      List.Lex (· < ·) (Field.places fields ordered) (Field.places fields other) := by
  obtain ⟨g, hg, hstuck, rfl⟩ := wireOrder_eq_ok h
  have hmem : ∀ f ∈ other, f ∈ fields := fun f hf => hperm.mem_iff.1 hf
  have hplaces : (Field.places fields other).Perm (List.range fields.length) :=
    places_self hnodup ▸ hperm.map _
  have hlegal := legal_of_inOrder hg hnodup hother hmem hplaces
  have hrange : ∀ i ∈ (g.drain fields.length (List.range fields.length)).1, i < fields.length :=
    fun i hi => List.mem_range.1 ((Graph.legal_drain hstuck).perm.mem_iff.1 hi)
  rw [places_filterMap hnodup hrange]
  rcases Graph.drain_least List.pairwise_lt_range hstuck hlegal with hsame | hless
  · exact .inl (by rw [← hsame, filterMap_places hnodup hmem])
  · exact .inr hless

/-- Fields that stand in order stay as they are. -/
theorem wireOrder_of_inOrder (hfound : ∀ f ∈ fields, ∀ d ∈ f.dependencies, ∃ g ∈ fields, g.name = d)
    (h : Field.InOrder [] fields) : wireOrder fields place = .ok fields := by
  obtain ⟨g, hg⟩ : ∃ g : Graph, fields.mapM (dependencies fields place) = .ok g :=
    exists_mapM_eq_ok fun f hf => exists_dependencies (hfound f hf)
  have hlegal := legal_of_inOrder hg h.nodup h (fun f hf => hf) (List.Perm.refl _)
  rw [places_self h.nodup] at hlegal
  have hdrain := Graph.drain_of_legal hlegal
  rw [List.length_range] at hdrain
  rw [wireOrder_of_graph hg, hdrain]
  exact congrArg Except.ok (filterMap_range fields)

/-- **The wire order is the least order in which dependencies come first.** Where names stand once
and all that fields depend on stands in the list, the fields can be ordered exactly if there is no
cycle. The order is then a rearrangement of the list in which every field comes behind those that it
depends on, and any other such rearrangement has, where it first differs from it, a field declared
later. A list that is in order stays as it is. Counting the dependencies that wait finds the same,
in any number of steps that is no less than that of the fields. -/
theorem wireOrder_least (place : Place) (hnodup : (fields.map (·.name)).Nodup)
    (hfound : ∀ f ∈ fields, ∀ d ∈ f.dependencies, ∃ g ∈ fields, g.name = d) :
    ((∃ ordered, wireOrder fields place = .ok ordered) ↔ Acyclic (Field.DependsOn fields)) ∧
    (∀ ordered, wireOrder fields place = .ok ordered →
      ordered.Perm fields ∧ Field.InOrder [] ordered ∧
      ∀ other : List Field, other.Perm fields → Field.InOrder [] other →
        other = ordered ∨
          List.Lex (· < ·) (Field.places fields ordered) (Field.places fields other)) ∧
    (Field.InOrder [] fields → wireOrder fields place = .ok fields) ∧
    ∀ steps, fields.length ≤ steps →
      countedOrder? steps fields place = some (wireOrder fields place) := by
  refine ⟨exists_wireOrder_iff hnodup hfound, fun ordered h => ?_, wireOrder_of_inOrder hfound,
    fun steps => countedOrder?_eq fields place⟩
  exact ⟨perm_of_wireOrder h, inOrder_of_wireOrder h hnodup,
    fun other hperm hother => least_of_wireOrder hnodup h hperm hother⟩

/-- A gated array, its gate, a field that reads the array, and the count of the array. -/
def crateFields : List Field := [
  { name := "items", format := .array (.int .u16), sizeField? := some "count"
    prerequisites := [⟨"flag", .eq, .int 1⟩] },
  { name := "flag", format := .int .u8 },
  { name := "seal", format := .uuid, prerequisites := [⟨"items", .ne, .int 0⟩] },
  { name := "count", format := .int .u8 }]

/-- The gate, declared before the count, goes first, and the array as soon as it may. -/
theorem wireOrder_least_crate :
    (crateFields.map (·.name)).Nodup ∧
      (∀ f ∈ crateFields, ∀ d ∈ f.dependencies, ∃ g ∈ crateFields, g.name = d) ∧
      Acyclic (Field.DependsOn crateFields) ∧
      ∃ ordered, wireOrder crateFields (.container "M" .set) = .ok ordered ∧
        ordered.map (·.name) = ["flag", "count", "items", "seal"] ∧
        ∀ other : List Field, other.Perm crateFields → Field.InOrder [] other →
          other = ordered ∨ List.Lex (· < ·) [1, 3, 0, 2] (Field.places crateFields other) := by
  have hnodup : (crateFields.map (·.name)).Nodup := by decide
  have hfound : ∀ f ∈ crateFields, ∀ d ∈ f.dependencies, ∃ g ∈ crateFields, g.name = d := by
    decide
  have hleast := wireOrder_least (.container "M" .set) hnodup hfound
  have hordered : wireOrder crateFields (.container "M" .set) =
      .ok ([1, 3, 0, 2].filterMap fun i => crateFields[i]?) := by
    decide +kernel
  exact ⟨hnodup, hfound, hleast.1.1 ⟨_, hordered⟩, _, hordered, rfl, (hleast.2.1 _ hordered).2.2⟩

end WireOrder

end WirePlan
