import WirePlan.Layout.WireOrder
import WirePlan.Proofs.Outcome

/-!
# The wire order respects dependencies

A list of fields is in order when names stand once and every field comes behind the fields that it
depends on (`Field.InOrder`). The wire order is a permutation of the declared list
(`perm_of_wireOrder`), and that of a list whose names stand once is in order
(`inOrder_of_wireOrder`): a field goes only when none of its dependencies waits
(`WireOrder.Graph.Legal`), and what waits no longer has gone before.
-/

namespace WirePlan

/-- Names stand once, and every field comes behind those it depends on; `before` holds the names of
the fields before the list. -/
def Field.InOrder (before : List String) : List Field → Prop
  | [] => True
  | f :: rest => f.name ∉ before ∧ (∀ d ∈ f.dependencies, d ∈ before) ∧
      Field.InOrder (f.name :: before) rest

/-- What counts the items of a field stands before it, so it is another field. -/
theorem Field.counter_ne {before : List String} {f : Field} (hfresh : f.name ∉ before)
    (hdeps : ∀ d ∈ f.dependencies, d ∈ before) (counter : String)
    (h : f.sizeField? = some counter) : counter ≠ f.name := by
  rintro rfl
  exact hfresh (hdeps _ (List.mem_append_left _ (Option.mem_toList.2 h)))

/-- A name of a list in order is none of those before it. -/
theorem Field.InOrder.not_mem_before {before : List String} {fields : List Field}
    (h : Field.InOrder before fields) {f : Field} (hf : f ∈ fields) : f.name ∉ before := by
  induction fields generalizing before with
  | nil => cases hf
  | cons g rest ih =>
    cases hf with
    | head => exact h.1
    | tail _ hf => exact fun hmem => ih h.2.2 hf (.tail _ hmem)

/-- Names stand once in a list in order. -/
theorem Field.InOrder.nodup {before : List String} {fields : List Field}
    (h : Field.InOrder before fields) : (fields.map (·.name)).Nodup := by
  induction fields generalizing before with
  | nil => exact .nil
  | cons g rest ih =>
    refine List.nodup_cons.2 ⟨fun hmem => ?_, ih h.2.2⟩
    obtain ⟨f, hf, hname⟩ := List.mem_map.1 hmem
    exact h.2.2.not_mem_before hf (hname ▸ .head _)

/-- A field of a list in order depends on fields before the list and on fields before it. -/
theorem Field.InOrder.mem_take_of_dependency {before : List String} {fields : List Field}
    (h : Field.InOrder before fields) {i : Nat} {f : Field} (hf : fields[i]? = some f) {d : String}
    (hd : d ∈ f.dependencies) : d ∈ before ∨ ∃ g ∈ fields.take i, g.name = d := by
  induction fields generalizing before i with
  | nil => cases hf
  | cons g rest ih =>
    cases i with
    | zero =>
      cases hf
      exact .inl (h.2.1 d hd)
    | succ i =>
      rcases ih h.2.2 hf with hmem | ⟨k, hk, hname⟩
      · rcases List.mem_cons.1 hmem with rfl | hmem
        · exact .inr ⟨g, .head _, rfl⟩
        · exact .inl hmem
      · exact .inr ⟨k, .tail _ hk, hname⟩

/-- A field of a list in order depends on fields before the list and on fields of it. -/
theorem Field.InOrder.mem_of_dependency {before : List String} {fields : List Field}
    (h : Field.InOrder before fields) {f : Field} (hf : f ∈ fields) {d : String}
    (hd : d ∈ f.dependencies) : d ∈ before ∨ ∃ g ∈ fields, g.name = d := by
  obtain ⟨i, hi⟩ := List.getElem?_of_mem hf
  refine (h.mem_take_of_dependency hi hd).imp_right fun ⟨g, hg, hname⟩ => ?_
  exact ⟨g, List.mem_of_mem_take hg, hname⟩

namespace WireOrder

/-- Each index waits when it goes, none of its dependencies does, and in the end nothing waits. -/
def Graph.Legal (g : Graph) : (waiting order : List Nat) → Prop
  | waiting, [] => waiting = []
  | waiting, i :: rest => i ∈ waiting ∧ (∀ d ∈ g.of i, d ∉ waiting) ∧
      g.Legal (waiting.erase i) rest

/-- Where nothing is stuck in the end, every index has gone in its turn. -/
theorem Graph.legal_drain {g : Graph} {steps : Nat} {waiting : List Nat}
    (h : (g.drain steps waiting).2 = []) : g.Legal waiting (g.drain steps waiting).1 := by
  induction steps generalizing waiting with
  | zero => exact h
  | succ steps ih =>
    cases hfind : waiting.find? (g.ready waiting) with
    | none =>
      simp only [drain, hfind] at h ⊢
      exact h
    | some i =>
      simp only [drain, hfind] at h ⊢
      have hready := List.find?_some hfind
      simp only [ready, List.all_eq_true, decide_eq_true_eq] at hready
      exact ⟨List.mem_of_find?_eq_some hfind, hready, ih h⟩

end WireOrder

/-- The index found for a name is that of a field with the name. -/
theorem getElem?_of_lastIndex? {fields : List Field} {name : String} {i : Nat}
    (h : lastIndex? fields name = some i) : ∃ f, fields[i]? = some f ∧ f.name = name := by
  induction fields generalizing i with
  | nil => cases h
  | cons g rest ih =>
    rw [lastIndex?] at h
    split at h
    · next j hj =>
      cases h
      exact ih hj
    · split at h
      · next hname =>
        cases h
        exact ⟨g, rfl, hname⟩
      · cases h

namespace WireOrder

/-- Every field that a field depends on is among the dependencies found. -/
theorem mem_dependencies {fields : List Field} {place : Place} {f : Field} {indices : List Nat}
    (h : dependencies fields place f = .ok indices) {d : String} (hd : d ∈ f.dependencies) :
    ∃ i ∈ indices, ∃ g, fields[i]? = some g ∧ g.name = d := by
  obtain ⟨counter, hcounter, h⟩ := bind_eq_ok.1 h
  obtain ⟨siblings, hsiblings, h⟩ := bind_eq_ok.1 h
  cases pure_eq_ok.1 h
  rcases List.mem_append.1 hd with hd | hd
  · have hsize : f.sizeField? = some d := Option.mem_toList.1 hd
    rw [counterIndex, hsize] at hcounter
    dsimp only at hcounter
    split at hcounter
    · next i hi =>
      cases hcounter
      exact ⟨i, List.mem_append_left _ (.head _), getElem?_of_lastIndex? hi⟩
    · cases hcounter
  · obtain ⟨p, hp, rfl⟩ := List.mem_map.1 hd
    obtain ⟨i, hi, hindex⟩ := exists_of_mem_left (mapM_eq_ok.1 hsiblings) hp
    rw [siblingIndex] at hindex
    split at hindex
    · next j hj =>
      cases hindex
      exact ⟨i, List.mem_append_right _ hi, getElem?_of_lastIndex? hj⟩
    · cases hindex

/-- What the graph holds for an index is the dependencies of the field with the index. -/
theorem dependencies_of {fields : List Field} {place : Place} {g : Graph}
    (hg : fields.mapM (dependencies fields place) = .ok g) {i : Nat} {f : Field}
    (hf : fields[i]? = some f) : dependencies fields place f = .ok (g.of i) := by
  have hall := mapM_eq_ok.1 hg
  obtain ⟨hi, rfl⟩ := List.getElem?_eq_some_iff.1 hf
  have hlt : i < g.length := hall.length_eq ▸ hi
  rw [Graph.of, List.getD_eq_getElem?_getD, List.getElem?_eq_getElem hlt]
  exact hall.get hi hlt

/-- Fields that go in a legal order are in order. The induction is on the order; what it carries is
that the names before are those of the fields that wait no longer. -/
theorem inOrder_of_legal {fields : List Field} {place : Place} {g : Graph}
    (hg : fields.mapM (dependencies fields place) = .ok g)
    (hnames : (fields.map (·.name)).Nodup) {waiting order : List Nat} {before : List String}
    (horder : g.Legal waiting order) (hnodup : waiting.Nodup)
    (hgone : ∀ (i : Nat) (f : Field), fields[i]? = some f → i ∉ waiting → f.name ∈ before)
    (hwait : ∀ (i : Nat) (f : Field), fields[i]? = some f → i ∈ waiting → f.name ∉ before)
    (hrange : ∀ i ∈ waiting, i < fields.length) :
    Field.InOrder before (order.filterMap fun i => fields[i]?) := by
  induction order generalizing waiting before with
  | nil => trivial
  | cons i rest ih =>
    obtain ⟨hi, hdeps, hrest⟩ := horder
    obtain ⟨f, hf⟩ : ∃ f, fields[i]? = some f :=
      ⟨_, List.getElem?_eq_getElem (hrange i hi)⟩
    rw [List.filterMap_cons_some hf]
    refine ⟨hwait i f hf hi, fun d hd => ?_, ih hrest (hnodup.erase i) ?_ ?_ ?_⟩
    · obtain ⟨j, hj, k, hk, rfl⟩ := mem_dependencies (dependencies_of hg hf) hd
      exact hgone j k hk (hdeps j hj)
    · intro j k hk hj
      by_cases hji : j = i
      · subst hji
        rw [hf] at hk
        cases hk
        exact .head _
      · exact .tail _ (hgone j k hk fun hmem => hj ((List.mem_erase_of_ne hji).2 hmem))
    · intro j k hk hj hmem
      have hjw := List.mem_of_mem_erase hj
      rcases List.mem_cons.1 hmem with hname | hmem
      · have hjn : j < (fields.map (·.name)).length := by simpa using hrange j hjw
        have hsame : (fields.map (·.name))[j]? = (fields.map (·.name))[i]? := by
          rw [List.getElem?_map, List.getElem?_map, hk, hf]
          exact congrArg some hname
        have hji : j = i := List.getElem?_inj hjn hnames |>.1 hsame
        exact hnodup.not_mem_erase (hji ▸ hj)
      · exact hwait j k hk hjw hmem
    · exact fun j hj => hrange j (List.mem_of_mem_erase hj)

/-- **The wire order is in order.** -/
theorem inOrder_of_wireOrder {fields ordered : List Field} {place : Place}
    (h : wireOrder fields place = .ok ordered) (hnames : (fields.map (·.name)).Nodup) :
    Field.InOrder [] ordered := by
  obtain ⟨g, hg, h⟩ := bind_eq_ok.1 h
  dsimp only at h
  split at h
  · next hstuck =>
    cases pure_eq_ok.1 h
    have horder := Graph.legal_drain (List.isEmpty_iff.1 hstuck)
    refine inOrder_of_legal hg hnames horder List.nodup_range ?_ ?_ ?_
    · intro i f hf hi
      exact absurd (List.mem_range.2 (List.getElem?_eq_some_iff.1 hf).1) hi
    · intro _ _ _ _ hmem
      cases hmem
    · exact fun i hi => List.mem_range.1 hi
  · cases h

/-- In a legal order everything that waits goes once. -/
theorem Graph.Legal.perm {g : Graph} {waiting order : List Nat} (h : g.Legal waiting order) :
    order.Perm waiting := by
  induction order generalizing waiting with
  | nil =>
    rw [show waiting = [] from h]
  | cons i rest ih =>
    obtain ⟨hi, -, hrest⟩ := h
    exact ((ih hrest).cons i).trans (List.perm_cons_erase hi).symm

/-- The fields with the indices of a list, in order, are the list. -/
theorem filterMap_range (fields : List Field) :
    (List.range fields.length).filterMap (fun i => fields[i]?) = fields := by
  induction fields with
  | nil => rfl
  | cons f rest ih =>
    rw [List.length_cons, List.range_succ_eq_map, List.filterMap_cons, List.getElem?_cons_zero,
      List.filterMap_map]
    exact congrArg (f :: ·) ih

/-- The wire order is a permutation of the declaration order. -/
theorem perm_of_wireOrder {fields ordered : List Field} {place : Place}
    (h : wireOrder fields place = .ok ordered) : ordered.Perm fields := by
  obtain ⟨g, -, h⟩ := bind_eq_ok.1 h
  dsimp only at h
  split at h
  · next hstuck =>
    cases pure_eq_ok.1 h
    have horder := (Graph.legal_drain (List.isEmpty_iff.1 hstuck)).perm
    exact (horder.filterMap _).trans (.of_eq (filterMap_range fields))
  · cases h

/-- The fields in wire order are fields of the list. -/
theorem mem_of_wireOrder {fields ordered : List Field} {place : Place}
    (h : wireOrder fields place = .ok ordered) {f : Field} (hf : f ∈ ordered) : f ∈ fields :=
  (perm_of_wireOrder h).mem_iff.1 hf

end WireOrder

end WirePlan
