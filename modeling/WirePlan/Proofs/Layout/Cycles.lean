import Mathlib.Data.List.Chain
import Mathlib.Data.List.Nodup
import Mathlib.Data.List.Perm.Subperm
import Mathlib.Logic.Relation
import WirePlan.Proofs.Layout.Precedence

/-!
# Fields that cannot be ordered

Fields can be ordered exactly if none depends on itself through others. A list in order has no cycle
as every field depends on earlier ones (`acyclic_of_inOrder`). If the ordering gets stuck, every
field that waits depends on one that waits (`WireOrder.Graph.exists_of_stuck`); as there are only so
many, following these dependencies must come back to a field passed before, and it does so within
the steps allowed for it (`WireOrder.Graph.isSimpleCycle_followCycle`). So what the error names is a
cycle (`WireOrder.isCycle_of_error`), and one that passes no field twice. Members of structs are
never gated and what counts is not counted, which leaves no room for a cycle
(`Schema.exists_wireOrder_members`).
-/

namespace WirePlan

variable {α β : Type} {R : α → α → Prop} {S : β → β → Prop}

/-- Nothing reaches itself. -/
def Acyclic (R : α → α → Prop) : Prop := ∀ x, ¬ Relation.TransGen R x x

/-- A relation along which a rank falls is acyclic. -/
theorem acyclic_of_rank (rank : α → Nat) (h : ∀ a b, R a b → rank b < rank a) : Acyclic R := by
  have hfalls : ∀ a b, Relation.TransGen R a b → rank b < rank a := by
    intro a b hab
    induction hab with
    | single hr => exact h _ _ hr
    | tail _ hr ih => exact (h _ _ hr).trans ih
  exact fun x hx => (hfalls x x hx).false

/-- A relation that leads nowhere on is acyclic. -/
theorem acyclic_of_flat (h : ∀ a b c, R a b → ¬ R b c) : Acyclic R := by
  intro x hx
  obtain ⟨a, hxa, hax⟩ := Relation.TransGen.head'_iff.1 hx
  rcases Relation.ReflTransGen.cases_head hax with rfl | ⟨b, hab, -⟩
  · exact h _ _ _ hxa hxa
  · exact h _ _ _ hxa hab

/-- What leads on only so far does not reach itself. -/
theorem not_transGen_of_acc {x : α} (h : Acc (fun b a => R a b) x) : ¬ Relation.TransGen R x x := by
  induction h with
  | intro x _ ih =>
    intro hx
    obtain ⟨y, hxy, hyx⟩ := Relation.TransGen.head'_iff.1 hx
    exact ih y hxy (.tail' hyx hxy)

/-- A walk along a relation that ends where it starts. -/
structure IsCycle (R : α → α → Prop) (walk : List α) : Prop where
  chain : walk.IsChain R
  closed : ∃ x inner, walk = x :: (inner ++ [x])

theorem transGen_of_isChain {x y : α} {inner : List α}
    (h : (x :: (inner ++ [y])).IsChain R) : Relation.TransGen R x y := by
  induction inner generalizing x with
  | nil => exact .single (List.isChain_cons_cons.1 h).1
  | cons z rest ih =>
    obtain ⟨hfirst, hrest⟩ := List.isChain_cons_cons.1 h
    exact .head hfirst (ih hrest)

theorem IsCycle.not_acyclic {walk : List α} (h : IsCycle R walk) : ¬ Acyclic R := by
  obtain ⟨x, inner, rfl⟩ := h.closed
  exact fun hacyclic => hacyclic x (transGen_of_isChain h.chain)

/-- The image of a cycle is one. -/
theorem IsCycle.map {walk : List α} (h : IsCycle R walk) (f : α → β)
    (hf : ∀ a b, R a b → S (f a) (f b)) : IsCycle S (walk.map f) where
  chain := List.isChain_map_of_isChain f hf h.chain
  closed := by
    obtain ⟨x, inner, rfl⟩ := h.closed
    exact ⟨f x, inner.map f, by simp⟩

/-- A cycle that passes nothing twice. -/
structure IsSimpleCycle (R : α → α → Prop) (walk : List α) : Prop extends IsCycle R walk where
  nodup : walk.dropLast.Nodup

/-- The image of a cycle that passes nothing twice is one, if what it passes is told apart. -/
theorem IsSimpleCycle.map {walk : List α} (h : IsSimpleCycle R walk) (f : α → β)
    (hf : ∀ a b, R a b → S (f a) (f b))
    (hinj : ∀ a ∈ walk, ∀ b ∈ walk, f a = f b → a = b) : IsSimpleCycle S (walk.map f) where
  toIsCycle := h.toIsCycle.map f hf
  nodup := by
    rw [← List.map_dropLast]
    refine List.Nodup.map_on (fun a ha b hb => ?_) h.nodup
    exact hinj a (List.dropLast_subset _ ha) b (List.dropLast_subset _ hb)

/-! ## Fields in order -/

/-- A field of the list depends on another. -/
def Field.DependsOn (fields : List Field) (a b : String) : Prop :=
  ∃ f ∈ fields, f.name = a ∧ b ∈ f.dependencies

theorem Field.dependsOn_of_perm {fields ordered : List Field} (h : ordered.Perm fields) :
    Field.DependsOn ordered = Field.DependsOn fields := by
  funext a b
  exact propext (exists_congr fun f => and_congr_left fun _ => h.mem_iff)

/-- **A list in order has no cycle.** The rank of a field is its place in the list. -/
theorem acyclic_of_inOrder {fields : List Field} (h : Field.InOrder [] fields) :
    Acyclic (Field.DependsOn fields) := by
  refine acyclic_of_rank (fun name => (fields.map (·.name)).idxOf name) ?_
  rintro a b ⟨f, hf, rfl, hb⟩
  have hplace : ∀ (i : Nat) (g : Field), fields[i]? = some g →
      (fields.map (·.name)).idxOf g.name = i := by
    intro i g hg
    obtain ⟨hi, rfl⟩ := List.getElem?_eq_some_iff.1 hg
    have hnodup := h.nodup
    have hi' : i < (fields.map (·.name)).length := by simpa using hi
    have hname : (fields.map (·.name))[i] = fields[i].name := List.getElem_map _
    rw [← hname, hnodup.idxOf_getElem i hi']
  obtain ⟨i, hi⟩ := List.getElem?_of_mem hf
  obtain ⟨g, hg, rfl⟩ := (h.mem_take_of_dependency hi hb).resolve_left List.not_mem_nil
  obtain ⟨j, hj⟩ := List.getElem?_of_mem hg
  rw [List.getElem?_take] at hj
  split at hj
  · next hlt => rwa [hplace i f hi, hplace j g hj]
  · cases hj

namespace WireOrder

/-! ## Fields that wait for each other -/

/-- The field with an index depends on another. -/
def Graph.Edge (g : Graph) (i j : Nat) : Prop := j ∈ g.of i

theorem Graph.Edge.lt_length {g : Graph} {i j : Nat} (h : g.Edge i j) : i < g.length := by
  by_contra hout
  have hnone : g[i]? = none := List.getElem?_eq_none (Nat.le_of_not_lt hout)
  rw [Edge, of, List.getD_eq_getElem?_getD, hnone] at h
  cases h

theorem Graph.subset_drain {g : Graph} {steps : Nat} {waiting : List Nat} :
    (g.drain steps waiting).2 ⊆ waiting := by
  induction steps generalizing waiting with
  | zero => exact fun _ h => h
  | succ steps ih =>
    cases hfind : waiting.find? (g.ready waiting) with
    | none =>
      simp only [drain, hfind]
      exact fun _ h => h
    | some i =>
      simp only [drain, hfind]
      exact fun j hj => List.mem_of_mem_erase (ih hj)

/-- What waits in the end depends on something that does. -/
theorem Graph.exists_of_stuck {g : Graph} {steps : Nat} {waiting : List Nat}
    (hsteps : waiting.length ≤ steps) {i : Nat} (hi : i ∈ (g.drain steps waiting).2) :
    ∃ j ∈ (g.drain steps waiting).2, g.Edge i j := by
  induction steps generalizing waiting with
  | zero =>
    rw [List.length_eq_zero_iff.1 (Nat.le_zero.1 hsteps)] at hi
    cases hi
  | succ steps ih =>
    cases hfind : waiting.find? (g.ready waiting) with
    | none =>
      simp only [drain, hfind] at hi ⊢
      have hunready := List.find?_eq_none.1 hfind i hi
      simp only [ready, List.all_eq_true, decide_eq_true_eq, not_forall, not_not] at hunready
      obtain ⟨j, hedge, hj⟩ := hunready
      exact ⟨j, hj, hedge⟩
    | some k =>
      simp only [drain, hfind] at hi ⊢
      have hk := List.length_erase_of_mem (List.mem_of_find?_eq_some hfind)
      exact ih (by omega) hi

/-- **Following dependencies among what waits ends in a cycle.** The path so far has no index twice,
so the steps left suffice to come back to it, and more of them would change nothing. -/
theorem Graph.isSimpleCycle_followCycle {g : Graph} {stuck : List Nat}
    (hstuck : ∀ i ∈ stuck, ∃ j ∈ stuck, g.Edge i j) {steps : Nat}
    (before : List Nat) {current : Nat} (hchain : (before ++ [current]).IsChain g.Edge)
    (hnodup : (before ++ [current]).Nodup) (hsubset : before ++ [current] ⊆ stuck)
    (hsteps : (before ++ [current]).length + steps = stuck.length + 1) :
    IsSimpleCycle g.Edge (g.followCycle stuck steps (before ++ [current]) current) ∧
      g.followCycle stuck steps (before ++ [current]) current ⊆ stuck ∧
      ∀ more, g.followCycle stuck (steps + more) (before ++ [current]) current =
        g.followCycle stuck steps (before ++ [current]) current := by
  induction steps generalizing before current with
  | zero =>
    have hle := (hnodup.subperm hsubset).length_le
    omega
  | succ steps ih =>
    have hcurrent : current ∈ stuck := hsubset (by simp)
    obtain ⟨next, hnext⟩ : ∃ next, (g.of current).find? (· ∈ stuck) = some next := by
      obtain ⟨j, hj, hedge⟩ := hstuck current hcurrent
      exact Option.isSome_iff_exists.1 (List.find?_isSome.2 ⟨j, hedge, by simpa using hj⟩)
    have hedge : g.Edge current next := List.mem_of_find?_eq_some hnext
    have hmem : next ∈ stuck := by simpa using List.find?_some hnext
    have hlonger : (before ++ [current] ++ [next]).IsChain g.Edge :=
      hchain.append (List.isChain_singleton next) (by simpa using hedge)
    -- One step is the same, however many may follow.
    have hstep : ∀ left, g.followCycle stuck (left + 1) (before ++ [current]) current =
        if next ∈ before ++ [current] then (before ++ [current]).dropWhile (· ≠ next) ++ [next]
        else g.followCycle stuck left (before ++ [current] ++ [next]) next := by
      intro left
      rw [followCycle, hnext]
    simp only [Nat.add_right_comm steps 1, hstep]
    split
    · next hpassed =>
      obtain ⟨passed, inner, hpath, hfirst⟩ := List.eq_append_cons_of_mem hpassed
      have hcycle : (before ++ [current]).dropWhile (· ≠ next) = next :: inner := by
        rw [hpath, List.dropWhile_append_of_pos, List.dropWhile_cons_of_neg (by simp)]
        intro a ha
        simpa using fun heq : a = next => hfirst (heq ▸ ha)
      rw [hcycle]
      rw [hpath, List.append_assoc] at hlonger
      rw [hpath] at hnodup hsubset
      refine ⟨⟨⟨hlonger.right_of_append, next, inner, rfl⟩, ?_⟩, ?_, fun _ => rfl⟩
      · rw [List.dropLast_concat]
        exact hnodup.of_append_right
      · have hinner : inner ⊆ stuck := fun a ha => hsubset (by simp [ha])
        simpa [hmem] using hinner
    · next hfresh =>
      refine ih (before ++ [current]) hlonger ?_ ?_ ?_
      · exact List.nodup_append.2 ⟨hnodup, List.nodup_singleton next, by
          rintro a ha b hb rfl
          exact hfresh (List.mem_singleton.1 hb ▸ ha)⟩
      · exact List.append_subset.2 ⟨hsubset, by simpa using hmem⟩
      · simp only [List.length_append, List.length_singleton] at hsteps ⊢
        omega

/-- Where something waits in the end, the cycle found is one, and it is found however many more
steps are allowed. -/
theorem Graph.isSimpleCycle_cycle {g : Graph} {first : Nat} {rest : List Nat}
    (hstuck : ∀ i ∈ first :: rest, ∃ j ∈ first :: rest, g.Edge i j) :
    IsSimpleCycle g.Edge (g.cycle (first :: rest)) ∧ g.cycle (first :: rest) ⊆ first :: rest ∧
      ∀ steps, (first :: rest).length ≤ steps →
        g.followCycle (first :: rest) steps [first] first = g.cycle (first :: rest) := by
  obtain ⟨hcycle, hsubset, hmore⟩ := isSimpleCycle_followCycle hstuck []
    (List.isChain_singleton first) (List.nodup_singleton first) (by simp) (Nat.add_comm _ _)
  refine ⟨hcycle, hsubset, fun steps hsteps => ?_⟩
  obtain ⟨more, rfl⟩ := Nat.exists_eq_add_of_le hsteps
  exact hmore more

/-! ## Names for indices -/

/-- A name that stands in the list is found. -/
theorem exists_lastIndex? {fields : List Field} {name : String}
    (h : ∃ g ∈ fields, g.name = name) : ∃ i, lastIndex? fields name = some i := by
  induction fields with
  | nil =>
    obtain ⟨_, hg, -⟩ := h
    cases hg
  | cons f rest ih =>
    rw [lastIndex?]
    split
    · next i _ => exact ⟨_, rfl⟩
    · next hnone =>
      obtain ⟨g, hg, hname⟩ := h
      cases hg with
      | head => exact ⟨0, if_pos hname⟩
      | tail _ hg =>
        obtain ⟨i, hi⟩ := ih ⟨g, hg, hname⟩
        rw [hnone] at hi
        cases hi

variable {fields : List Field} {place : Place} {f : Field}

/-- The dependencies of a field on fields of the list are found. -/
theorem exists_dependencies (h : ∀ d ∈ f.dependencies, ∃ g ∈ fields, g.name = d) :
    ∃ indices, dependencies fields place f = .ok indices := by
  have hcounter : ∃ counter, counterIndex fields place f = .ok counter := by
    unfold counterIndex
    split
    · exact ⟨[], rfl⟩
    · next size hsize =>
      have hdep : size ∈ f.dependencies := List.mem_append_left _ (Option.mem_toList.2 hsize)
      obtain ⟨i, hi⟩ := exists_lastIndex? (h size hdep)
      exact ⟨[i], by rw [hi]⟩
  have hsiblings : ∃ siblings,
      f.prerequisites.mapM (siblingIndex fields place f) = .ok siblings := by
    refine exists_mapM_eq_ok fun p hp => ?_
    have hdep : p.sibling ∈ f.dependencies := List.mem_append_right _ (List.mem_map_of_mem hp)
    obtain ⟨i, hi⟩ := exists_lastIndex? (h p.sibling hdep)
    exact ⟨i, by rw [siblingIndex, hi]⟩
  obtain ⟨counter, hcounter⟩ := hcounter
  obtain ⟨siblings, hsiblings⟩ := hsiblings
  exact ⟨counter ++ siblings, bind_eq_ok.2 ⟨_, hcounter, bind_eq_ok.2 ⟨_, hsiblings, rfl⟩⟩⟩

/-- Every dependency found is a field that the field depends on. -/
theorem name_mem_of_dependencies {indices : List Nat}
    (h : dependencies fields place f = .ok indices) {i : Nat} (hi : i ∈ indices) :
    ∃ g, fields[i]? = some g ∧ g.name ∈ f.dependencies := by
  obtain ⟨counter, hcounter, h⟩ := bind_eq_ok.1 h
  obtain ⟨siblings, hsiblings, h⟩ := bind_eq_ok.1 h
  cases pure_eq_ok.1 h
  rcases List.mem_append.1 hi with hi | hi
  · unfold counterIndex at hcounter
    split at hcounter
    · cases hcounter
      cases hi
    · next size hsize =>
      split at hcounter
      · next j hj =>
        cases hcounter
        obtain ⟨g, hg, rfl⟩ := getElem?_of_lastIndex? hj
        rw [List.mem_singleton.1 hi]
        exact ⟨g, hg, List.mem_append_left _ (Option.mem_toList.2 hsize)⟩
      · cases hcounter
  · obtain ⟨p, hp, hindex⟩ := exists_of_mem_right (mapM_eq_ok.1 hsiblings) hi
    unfold siblingIndex at hindex
    split at hindex
    · next j hj =>
      cases hindex
      obtain ⟨g, hg, hname⟩ := getElem?_of_lastIndex? hj
      exact ⟨g, hg, List.mem_append_right _ (hname ▸ List.mem_map_of_mem hp)⟩
    · cases hindex

/-- The name of the field with an index. -/
def nameAt (fields : List Field) (i : Nat) : String := (fields.map (·.name)).getD i ""

theorem nameAt_eq {i : Nat} (h : fields[i]? = some f) : nameAt fields i = f.name := by
  rw [nameAt, List.getD_eq_getElem?_getD, List.getElem?_map, h]
  rfl

theorem names_eq_map {indices : List Nat} (h : ∀ i ∈ indices, i < fields.length) :
    names fields indices = indices.map (nameAt fields) := by
  refine List.filterMap_eq_map_iff_forall_eq_some.2 fun i hi => ?_
  have hf := List.getElem?_eq_getElem (h i hi)
  rw [nameAt_eq hf, hf]
  rfl

/-- The field with an index depends on those that its edges lead to. -/
theorem dependsOn_of_edge {g : Graph} (hg : fields.mapM (dependencies fields place) = .ok g)
    {i j : Nat} (h : g.Edge i j) : Field.DependsOn fields (nameAt fields i) (nameAt fields j) := by
  have hi : i < fields.length := (mapM_eq_ok.1 hg).length_eq ▸ h.lt_length
  have hf := List.getElem?_eq_getElem hi
  obtain ⟨k, hk, hmem⟩ := name_mem_of_dependencies (dependencies_of hg hf) h
  rw [nameAt_eq hf, nameAt_eq hk]
  exact ⟨fields[i], List.getElem_mem hi, rfl, hmem⟩

/-- The name of an index tells it from all others where names stand once. -/
theorem nameAt_inj (hnodup : (fields.map (·.name)).Nodup) {i j : Nat} (hi : i < fields.length)
    (hj : j < fields.length) (h : nameAt fields i = nameAt fields j) : i = j := by
  have hnames : (fields.map (·.name))[i]? = (fields.map (·.name))[j]? := by
    rw [nameAt_eq (List.getElem?_eq_getElem hi), nameAt_eq (List.getElem?_eq_getElem hj)] at h
    rw [List.getElem?_map, List.getElem?_map, List.getElem?_eq_getElem hi,
      List.getElem?_eq_getElem hj]
    exact congrArg some h
  exact (List.getElem?_inj (by simpa using hi) hnodup).1 hnames

/-! ## The error -/

/-- The order of fields whose dependencies are found, or the error with the cycle in its way. -/
theorem wireOrder_of_graph {g : Graph} (hg : fields.mapM (dependencies fields place) = .ok g) :
    wireOrder fields place =
      if (g.drain fields.length (List.range fields.length)).2.isEmpty then
        .ok ((g.drain fields.length (List.range fields.length)).1.filterMap fun i => fields[i]?)
      else .error (.cyclicDependency
        (names fields (g.cycle (g.drain fields.length (List.range fields.length)).2)) place) := by
  rw [wireOrder, hg]
  rfl

/-- Where the fields that others depend on are found, an error means that something is stuck, and
it names the cycle found among that. -/
theorem exists_stuck_of_error {g : Graph} (hg : fields.mapM (dependencies fields place) = .ok g)
    {error : SchemaError} (h : wireOrder fields place = .error error) :
    ∃ first rest, (g.drain fields.length (List.range fields.length)).2 = first :: rest ∧
      error = .cyclicDependency (names fields (g.cycle (first :: rest))) place := by
  rw [wireOrder_of_graph hg] at h
  split at h
  · cases h
  · next hwaits =>
    cases h
    obtain ⟨first, rest, hstuck⟩ := List.exists_cons_of_ne_nil (mt List.isEmpty_iff.2 hwaits)
    exact ⟨first, rest, hstuck, by rw [hstuck]⟩

/-- The cycle found among what is stuck is one of fields of the list, whatever steps are allowed. -/
theorem isSimpleCycle_of_stuck {g : Graph} {first : Nat} {rest : List Nat}
    (hstuck : (g.drain fields.length (List.range fields.length)).2 = first :: rest) :
    IsSimpleCycle g.Edge (g.cycle (first :: rest)) ∧
      (∀ i ∈ g.cycle (first :: rest), i < fields.length) ∧
      ∀ steps, (first :: rest).length ≤ steps →
        g.followCycle (first :: rest) steps [first] first = g.cycle (first :: rest) := by
  have hwaits := fun i (hi : i ∈ (g.drain fields.length (List.range fields.length)).2) =>
    g.exists_of_stuck (List.length_range ▸ Nat.le_refl fields.length) hi
  have hrange : (g.drain fields.length (List.range fields.length)).2 ⊆ List.range fields.length :=
    g.subset_drain
  rw [hstuck] at hwaits hrange
  obtain ⟨hcycle, hsubset, hmore⟩ := g.isSimpleCycle_cycle hwaits
  exact ⟨hcycle, fun i hi => List.mem_range.1 (hrange (hsubset hi)), hmore⟩

/-- **What the error names is a cycle.** Fields that depend on fields of the list only cannot be
ordered because of a cycle, which the error names, and for no other reason. -/
theorem isCycle_of_error (hfound : ∀ f ∈ fields, ∀ d ∈ f.dependencies, ∃ g ∈ fields, g.name = d)
    {error : SchemaError} (h : wireOrder fields place = .error error) :
    ∃ cycle, error = .cyclicDependency cycle place ∧ IsCycle (Field.DependsOn fields) cycle := by
  obtain ⟨g, hg⟩ : ∃ g : Graph, fields.mapM (dependencies fields place) = .ok g :=
    exists_mapM_eq_ok fun f hf => exists_dependencies (hfound f hf)
  obtain ⟨first, rest, hstuck, rfl⟩ := exists_stuck_of_error hg h
  obtain ⟨hcycle, hrange, -⟩ := isSimpleCycle_of_stuck hstuck
  refine ⟨_, rfl, ?_⟩
  rw [names_eq_map hrange]
  exact hcycle.toIsCycle.map _ fun i j => dependsOn_of_edge hg

/-- **Fields can be ordered exactly if there is no cycle.** -/
theorem exists_wireOrder_iff (hnodup : (fields.map (·.name)).Nodup)
    (hfound : ∀ f ∈ fields, ∀ d ∈ f.dependencies, ∃ g ∈ fields, g.name = d) :
    (∃ ordered, wireOrder fields place = .ok ordered) ↔ Acyclic (Field.DependsOn fields) := by
  constructor
  · rintro ⟨ordered, h⟩
    rw [← Field.dependsOn_of_perm (perm_of_wireOrder h)]
    exact acyclic_of_inOrder (inOrder_of_wireOrder h hnodup)
  · intro hacyclic
    cases h : wireOrder fields place with
    | ok ordered => exact ⟨ordered, rfl⟩
    | error error =>
      obtain ⟨cycle, -, hcycle⟩ := isCycle_of_error hfound h
      exact absurd hacyclic hcycle.not_acyclic

end WireOrder

end WirePlan
