import Mathlib.Data.Finset.Card
import Mathlib.Data.List.Dedup
import WirePlan.Proofs.Layout.Cycles

/-!
# The wire order by counting

To order fields it is not needed to look through the dependencies of all that wait, time and again.
It is enough to count, for every field, how many of its dependencies wait, each of them once: when a
field goes, the counts of those that depend on it go down, and where one comes to zero its field is
ready. The counts are at all times those of the dependencies that wait (`Counting.Counts`), so none
that is zero ever goes down, the field that goes next is the same, and what is stuck in the end are
the fields with counts left. So the wire order, or the cycle in its way, is what counting finds
(`WireOrder.countedOrder?_eq`), and the walk along counts that are left finds a cycle that passes no
field twice (`WireOrder.isSimpleCycle_of_cyclicDependency`).
-/

namespace WirePlan.WireOrder

/-- A rising list with a further number, unless it has it. -/
def insertRising (j : Nat) : List Nat → List Nat
  | [] => [j]
  | i :: rest =>
    if j < i then j :: i :: rest
    else if j = i then i :: rest
    else i :: insertRising j rest

/-- How many dependencies of each field wait, and the fields that are ready, rising. -/
structure Counting where
  counts : List Nat
  ready : List Nat
  deriving DecidableEq, Repr

/-- A dependency of a field has gone; if it was the last one, the field is ready. There is no result
if none waited. -/
def Counting.release? (s : Counting) (j : Nat) : Option Counting :=
  match s.counts[j]? with
  | some (count + 1) =>
    some ⟨s.counts.set j count, if count = 0 then insertRising j s.ready else s.ready⟩
  | _ => none

/-- The fields that depend on a field, rising. -/
def Graph.dependents (g : Graph) (i : Nat) : List Nat :=
  (List.range g.length).filter fun j => i ∈ g.of j

/-- The counts at the start, and the fields that depend on nothing. -/
def Graph.counting (g : Graph) : Counting :=
  let counts := g.map (·.dedup.length)
  ⟨counts, (List.range g.length).filter fun i => counts[i]? = some 0⟩

/-- The order in which ready fields go, the first one each time, and the counts in the end. -/
def Graph.countOff? (g : Graph) : (steps : Nat) → Counting → Option (List Nat × List Nat)
  | 0, s => some ([], s.counts)
  | steps + 1, s =>
    match s.ready with
    | [] => some ([], s.counts)
    | next :: ready => do
      let s ← (g.dependents next).foldlM Counting.release? { s with ready }
      let (order, counts) ← g.countOff? steps s
      return (next :: order, counts)

/-- The fields with a count left. -/
def counted (counts : List Nat) : List Nat :=
  (List.range counts.length).filter fun i => counts[i]? ≠ some 0

/-- The fields of a list in wire order, found by counting in at most so many steps. -/
def countedOrder? (steps : Nat) (fields : List Field) (place : Place) :
    Option (Except SchemaError (List Field)) :=
  match fields.mapM (dependencies fields place) with
  | .error e => some (.error e)
  | .ok found => do
    let graph : Graph := found
    let (order, counts) ← graph.countOff? steps graph.counting
    if order.length < fields.length then
      return .error (.cyclicDependency (names fields (graph.cycle (counted counts))) place)
    else return .ok (order.filterMap fun i => fields[i]?)

/-! ## Rising lists -/

theorem mem_insertRising {i j : Nat} {numbers : List Nat} :
    i ∈ insertRising j numbers ↔ i = j ∨ i ∈ numbers := by
  induction numbers with
  | nil => simp [insertRising]
  | cons k rest ih =>
    rw [insertRising]
    split
    · exact List.mem_cons
    · split
      · next hjk => simp [hjk]
      · rw [List.mem_cons, List.mem_cons, ih]
        exact or_left_comm

theorem rising_insertRising {j : Nat} {numbers : List Nat} (h : numbers.Pairwise (· < ·)) :
    (insertRising j numbers).Pairwise (· < ·) := by
  induction h with
  | nil => exact List.pairwise_singleton _ _
  | @cons k rest hk hrest ih =>
    rw [insertRising]
    split
    · next hjk =>
      refine .cons (List.forall_mem_cons.2 ⟨hjk, fun i hi => hjk.trans (hk i hi)⟩) ?_
      exact .cons hk hrest
    · split
      · exact .cons hk hrest
      · refine .cons (fun i hi => ?_) ih
        rcases mem_insertRising.1 hi with rfl | hi
        · omega
        · exact hk i hi

/-- Rising lists of the same numbers are the same. -/
theorem eq_of_rising {xs ys : List Nat} (hxs : xs.Pairwise (· < ·)) (hys : ys.Pairwise (· < ·))
    (h : ∀ i, i ∈ xs ↔ i ∈ ys) : xs = ys := by
  have hnodup : ∀ {zs : List Nat}, zs.Pairwise (· < ·) → zs.Nodup :=
    fun hzs => hzs.imp Nat.ne_of_lt
  have hperm : xs.Perm ys := (List.perm_ext_iff_of_nodup (hnodup hxs) (hnodup hys)).2 h
  exact hperm.eq_of_pairwise (fun _ _ _ _ hlt hgt => absurd hgt (Nat.lt_asymm hlt)) hxs hys

/-! ## One step -/

/-- The dependencies of a field that wait. -/
def Graph.blockers (g : Graph) (waiting : List Nat) (i : Nat) : Finset Nat :=
  (g.of i).toFinset.filter (· ∈ waiting)

/-- The counts are those of the dependencies that wait. -/
structure Counting.Counts (g : Graph) (waiting : List Nat) (s : Counting) : Prop where
  counts : s.counts = (List.range g.length).map fun i => (g.blockers waiting i).card
  ready : s.ready = waiting.filter (g.ready waiting)

/-- What waits at some time: what has gone depends on nothing that waits. -/
structure Graph.Waits (g : Graph) (waiting : List Nat) : Prop where
  rising : waiting.Pairwise (· < ·)
  range : ∀ i ∈ waiting, i < g.length
  gone : ∀ i < g.length, i ∉ waiting → ∀ d ∈ g.of i, d ∉ waiting

variable {g : Graph} {waiting : List Nat} {next : Nat}

theorem Graph.mem_dependents {i j : Nat} : j ∈ g.dependents i ↔ j < g.length ∧ i ∈ g.of j := by
  simp [dependents]

theorem Graph.mem_blockers {i d : Nat} : d ∈ g.blockers waiting i ↔ d ∈ g.of i ∧ d ∈ waiting := by
  simp [blockers]

theorem Graph.ready_iff {i : Nat} : g.ready waiting i = true ↔ ∀ d ∈ g.of i, d ∉ waiting := by
  simp [ready]

theorem Graph.Waits.nodup (h : g.Waits waiting) : waiting.Nodup := h.rising.imp Nat.ne_of_lt

/-- A field that is ready goes. -/
theorem Graph.Waits.erase (h : g.Waits waiting) (hready : g.ready waiting next = true) :
    g.Waits (waiting.erase next) where
  rising := h.rising.sublist List.erase_sublist
  range i hi := h.range i (List.mem_of_mem_erase hi)
  gone i hi hgone d hd hwaits := by
    have hd' := List.mem_of_mem_erase hwaits
    by_cases hnext : i = next
    · exact Graph.ready_iff.1 hready d (hnext ▸ hd) hd'
    · exact h.gone i hi (fun hmem => hgone ((List.mem_erase_of_ne hnext).2 hmem)) d hd hd'

/-- Of the dependencies that wait, a field that goes is one fewer where it is one. -/
theorem Graph.card_blockers_erase (h : g.Waits waiting) (hnext : next ∈ waiting) {i : Nat}
    (hi : i < g.length) :
    (g.blockers (waiting.erase next) i).card =
      if i ∈ g.dependents next then (g.blockers waiting i).card - 1
      else (g.blockers waiting i).card := by
  have herase : g.blockers (waiting.erase next) i = (g.blockers waiting i).erase next := by
    ext d
    rw [mem_blockers, Finset.mem_erase, mem_blockers, h.nodup.mem_erase_iff]
    exact and_left_comm
  rw [herase]
  split
  · next hdepends =>
    exact Finset.card_erase_of_mem (mem_blockers.2 ⟨(mem_dependents.1 hdepends).2, hnext⟩)
  · next hother =>
    rw [Finset.erase_eq_of_notMem fun hmem =>
      hother (mem_dependents.2 ⟨hi, (mem_blockers.1 hmem).1⟩)]

/-- One dependency waits where all that wait are the same. -/
theorem Graph.card_blockers_eq_one (hnext : next ∈ waiting) {i : Nat} (hedge : next ∈ g.of i) :
    (g.blockers waiting i).card = 1 ↔ ∀ d ∈ g.of i, d ∈ waiting → d = next := by
  have hmem : next ∈ g.blockers waiting i := mem_blockers.2 ⟨hedge, hnext⟩
  constructor
  · intro hcard d hd hwaits
    obtain ⟨only, honly⟩ := Finset.card_eq_one.1 hcard
    rw [honly, Finset.mem_singleton] at hmem
    exact (Finset.mem_singleton.1 (honly ▸ mem_blockers.2 ⟨hd, hwaits⟩)).trans hmem.symm
  · intro hall
    refine Finset.card_eq_one.2 ⟨next, Finset.eq_singleton_iff_unique_mem.2 ⟨hmem, fun d hd => ?_⟩⟩
    exact hall d (mem_blockers.1 hd).1 (mem_blockers.1 hd).2

/-- Ready after a field has gone are those that were so before, and those that waited for this field
only. -/
theorem Graph.mem_ready_erase (h : g.Waits waiting) {ready : List Nat}
    (hready : waiting.filter (g.ready waiting) = next :: ready) {i : Nat} :
    i ∈ (waiting.erase next).filter (g.ready (waiting.erase next)) ↔
      i ∈ ready ∨ i ∈ g.dependents next ∧ (g.blockers waiting i).card = 1 := by
  have hmem : ∀ j, j ∈ next :: ready ↔ j ∈ waiting ∧ ∀ d ∈ g.of j, d ∉ waiting := by
    intro j
    rw [← hready, List.mem_filter, ready_iff]
  have hfresh : next ∉ ready :=
    (List.nodup_cons.1 (hready ▸ h.nodup.filter _)).1
  obtain ⟨hnext, hfree⟩ := (hmem next).1 (.head _)
  rw [List.mem_filter, ready_iff, h.nodup.mem_erase_iff]
  constructor
  · rintro ⟨⟨hne, hi⟩, hdeps⟩
    have honly : ∀ d ∈ g.of i, d ∈ waiting → d = next := by
      intro d hd hwaits
      by_contra hother
      exact hdeps d hd (h.nodup.mem_erase_iff.2 ⟨hother, hwaits⟩)
    by_cases hedge : next ∈ g.of i
    · exact .inr ⟨mem_dependents.2 ⟨h.range i hi, hedge⟩,
        (card_blockers_eq_one hnext hedge).2 honly⟩
    · refine .inl (((List.mem_cons.1 ((hmem i).2 ⟨hi, fun d hd hwaits => ?_⟩)).resolve_left hne))
      exact hedge (honly d hd hwaits ▸ hd)
  · rintro (hi | ⟨hdepends, hcard⟩)
    · obtain ⟨hwaits, hdeps⟩ := (hmem i).1 (.tail _ hi)
      exact ⟨⟨fun heq => hfresh (heq ▸ hi), hwaits⟩,
        fun d hd hmem => hdeps d hd (List.mem_of_mem_erase hmem)⟩
    · obtain ⟨hlt, hedge⟩ := mem_dependents.1 hdepends
      have honly := (card_blockers_eq_one hnext hedge).1 hcard
      refine ⟨⟨fun heq => hfree next (heq ▸ hedge) hnext, ?_⟩, fun d hd hmem => ?_⟩
      · by_contra hgone
        exact h.gone i hlt hgone next hedge hnext
      · obtain ⟨hother, hwaits⟩ := h.nodup.mem_erase_iff.1 hmem
        exact hother (honly d hd hwaits)

/-- All that depend on a field are released, none of them with nothing left to count. The induction
is on those still to be released; what it carries is that the counts of these are as before. -/
theorem Counting.exists_releaseAll {n : Nat} {count : Nat → Nat}
    {dependents counts ready : List Nat} (hnodup : dependents.Nodup)
    (hpositive : ∀ j ∈ dependents, j < n ∧ 0 < count j)
    (hcounts : counts = (List.range n).map count) (hrising : ready.Pairwise (· < ·)) :
    ∃ s, dependents.foldlM Counting.release? ⟨counts, ready⟩ = some s ∧
      s.counts = (List.range n).map (fun i => if i ∈ dependents then count i - 1 else count i) ∧
      s.ready.Pairwise (· < ·) ∧
      ∀ i, i ∈ s.ready ↔ i ∈ ready ∨ i ∈ dependents ∧ count i = 1 := by
  induction dependents generalizing counts ready count with
  | nil => exact ⟨⟨counts, ready⟩, rfl, by simpa using hcounts, hrising, by simp⟩
  | cons j rest ih =>
    obtain ⟨hfresh, hrest⟩ := List.nodup_cons.1 hnodup
    obtain ⟨hj, hjpos⟩ := hpositive j (.head _)
    obtain ⟨left, hleft⟩ : ∃ left, count j = left + 1 := ⟨count j - 1, by omega⟩
    have hfound : counts[j]? = some (left + 1) := by simp [hcounts, hj, hleft]
    have hset : counts.set j left = (List.range n).map (Function.update count j left) := by
      refine List.ext_getElem? fun i => ?_
      rw [hcounts, List.getElem?_set]
      split
      · next hij =>
        subst hij
        simp [hj]
      · next hij => by_cases hi : i < n <;> simp [hi, Ne.symm hij]
    have hother : ∀ i ∈ rest, Function.update count j left i = count i := fun i hi =>
      Function.update_of_ne (fun heq : i = j => hfresh (heq ▸ hi)) _ _
    have hready : (if left = 0 then insertRising j ready else ready).Pairwise (· < ·) := by
      split
      · exact rising_insertRising hrising
      · exact hrising
    obtain ⟨s, hs, hscounts, hsrising, hmem⟩ := ih hrest
      (fun i hi => (hother i hi).symm ▸ hpositive i (.tail _ hi)) hset hready
    refine ⟨s, ?_, hscounts.trans (List.map_congr_left fun i _ => ?_), hsrising, fun i => ?_⟩
    · rw [List.foldlM_cons, release?, hfound]
      exact hs
    · by_cases hij : i = j
      · subst hij
        simp [hfresh, hleft]
      · simp [hij]
    · rw [hmem, List.mem_cons]
      by_cases hij : i = j
      · subst hij
        by_cases hzero : left = 0 <;> simp [hfresh, hleft, hzero, mem_insertRising]
      · by_cases hzero : left = 0 <;> simp [hij, hzero, mem_insertRising]

/-! ## All steps -/

/-- **Counting goes on as the fields that wait do.** When the first ready field goes, its dependents
are released, and the counts are again those of the dependencies that wait. -/
theorem Counting.Counts.step {s : Counting} (h : s.Counts g waiting) (hwaits : g.Waits waiting)
    {ready : List Nat} (hready : s.ready = next :: ready) :
    ∃ s', (g.dependents next).foldlM Counting.release? { s with ready } = some s' ∧
      s'.Counts g (waiting.erase next) := by
  have hfilter : waiting.filter (g.ready waiting) = next :: ready := h.ready.symm.trans hready
  have hnext : next ∈ waiting.filter (g.ready waiting) := hfilter ▸ List.mem_cons_self
  obtain ⟨hmem, hfree⟩ := List.mem_filter.1 hnext
  have hrising : (next :: ready).Pairwise (· < ·) := hfilter ▸ hwaits.rising.filter _
  have hpositive : ∀ j ∈ g.dependents next, j < g.length ∧ 0 < (g.blockers waiting j).card := by
    intro j hj
    obtain ⟨hlt, hedge⟩ := Graph.mem_dependents.1 hj
    exact ⟨hlt, Finset.card_pos.2 ⟨next, Graph.mem_blockers.2 ⟨hedge, hmem⟩⟩⟩
  have hnodup : (g.dependents next).Nodup := List.nodup_range.filter _
  obtain ⟨s', hs', hcounts, hrising', hmem'⟩ :=
    exists_releaseAll hnodup hpositive h.counts (List.pairwise_cons.1 hrising).2
  refine ⟨s', hs', ?_, ?_⟩
  · rw [hcounts]
    refine List.map_congr_left fun i hi => ?_
    exact (Graph.card_blockers_erase hwaits hmem (List.mem_range.1 hi)).symm
  · refine eq_of_rising hrising' ((hwaits.erase hfree).rising.filter _) fun i => ?_
    rw [hmem', Graph.mem_ready_erase hwaits hfilter]

/-- **Counting finds the order in which fields go** and what is stuck in the end. -/
theorem Graph.countOff?_eq {steps : Nat} {s : Counting} (h : s.Counts g waiting)
    (hwaits : g.Waits waiting) :
    g.countOff? steps s = some ((g.drain steps waiting).1,
      (List.range g.length).map fun i => (g.blockers (g.drain steps waiting).2 i).card) := by
  induction steps generalizing waiting s with
  | zero => rw [countOff?, drain, h.counts]
  | succ steps ih =>
    have hhead : s.ready.head? = waiting.find? (g.ready waiting) := by
      rw [h.ready, List.head?_filter]
    cases hready : s.ready with
    | nil =>
      rw [hready] at hhead
      simp only [countOff?, hready, drain, ← hhead, List.head?_nil, h.counts]
    | cons next ready =>
      rw [hready] at hhead
      obtain ⟨s', hs', h'⟩ := h.step hwaits hready
      have hfree := List.find?_some hhead.symm
      simp only [countOff?, hready, drain, ← hhead, List.head?_cons]
      rw [hs', Option.bind_eq_bind, Option.bind_some, ih h' (hwaits.erase hfree)]
      rfl

/-- What is stuck in the end waits as what did in the beginning. -/
theorem Graph.Waits.drain (h : g.Waits waiting) (steps : Nat) :
    g.Waits (g.drain steps waiting).2 := by
  induction steps generalizing waiting with
  | zero => exact h
  | succ steps ih =>
    cases hfind : waiting.find? (g.ready waiting) with
    | none => simpa only [Graph.drain, hfind] using h
    | some next =>
      simpa only [Graph.drain, hfind] using ih (h.erase (List.find?_some hfind))

/-- What waits goes or is stuck. -/
theorem Graph.length_drain {steps : Nat} :
    (g.drain steps waiting).1.length + (g.drain steps waiting).2.length = waiting.length := by
  induction steps generalizing waiting with
  | zero => exact Nat.zero_add _
  | succ steps ih =>
    cases hfind : waiting.find? (g.ready waiting) with
    | none => simp only [drain, hfind, List.length_nil, Nat.zero_add]
    | some next =>
      have hmem := List.mem_of_find?_eq_some hfind
      have hlength := List.length_erase_add_one hmem
      simp only [drain, hfind, List.length_cons, Nat.add_right_comm _ 1, ih, hlength]

/-- As many steps as fields wait are enough. -/
theorem Graph.drain_of_le {steps : Nat} (h : waiting.length ≤ steps) :
    g.drain steps waiting = g.drain waiting.length waiting := by
  induction steps generalizing waiting with
  | zero => rw [Nat.le_zero.1 h]
  | succ steps ih =>
    cases waiting with
    | nil => rfl
    | cons i rest =>
      rw [List.length_cons] at h ⊢
      cases hfind : (i :: rest).find? (g.ready (i :: rest)) with
      | none => simp only [drain, hfind]
      | some next =>
        have hlength : ((i :: rest).erase next).length = rest.length :=
          List.length_erase_of_mem (List.mem_of_find?_eq_some hfind)
        have hrest : g.drain steps ((i :: rest).erase next) =
            g.drain rest.length ((i :: rest).erase next) := hlength ▸ ih (by omega)
        simp only [drain, hfind, hrest]

/-- The fields with counts left are those that are stuck. -/
theorem counted_eq {stuck : List Nat} (hwaits : g.Waits stuck)
    (hstuck : ∀ i ∈ stuck, ∃ j ∈ stuck, g.Edge i j) :
    counted ((List.range g.length).map fun i => (g.blockers stuck i).card) = stuck := by
  refine eq_of_rising (List.pairwise_lt_range.filter _) hwaits.rising fun i => ?_
  rw [counted, List.mem_filter, List.length_map, List.length_range, List.mem_range]
  constructor
  · rintro ⟨hi, hcount⟩
    by_contra hgone
    have hnone : g.blockers stuck i = ∅ :=
      Finset.filter_eq_empty_iff.2 fun d hd => hwaits.gone i hi hgone d (List.mem_toFinset.1 hd)
    simp [hi, hnone] at hcount
  · intro hi
    obtain ⟨j, hj, hedge⟩ := hstuck i hi
    have hlt := hwaits.range i hi
    have hpositive : (g.blockers stuck i).card ≠ 0 :=
      Finset.card_ne_zero_of_mem (Graph.mem_blockers.2 ⟨hedge, hj⟩)
    exact ⟨hlt, by simpa [hlt] using hpositive⟩

/-- At the start all dependencies are counted. -/
theorem Graph.counts_counting (hrange : ∀ i, ∀ d ∈ g.of i, d < g.length) :
    g.counting.Counts g (List.range g.length) := by
  have hblockers : ∀ i, g.blockers (List.range g.length) i = (g.of i).toFinset := fun i =>
    Finset.filter_true_of_mem fun d hd => List.mem_range.2 (hrange i d (List.mem_toFinset.1 hd))
  have hcounts : g.map (·.dedup.length) =
      (List.range g.length).map fun i => (g.blockers (List.range g.length) i).card := by
    refine List.ext_getElem (by simp) fun i hi _ => ?_
    have hlt : i < g.length := by simpa using hi
    have hof : g.of i = g[i] := by
      rw [of, List.getD_eq_getElem?_getD, List.getElem?_eq_getElem hlt]
      rfl
    simp [hblockers, hof, List.card_toFinset]
  refine ⟨hcounts, List.filter_congr fun i hi => ?_⟩
  have hlt := List.mem_range.1 hi
  rw [hcounts, Bool.eq_iff_iff, ready_iff]
  simp [hlt, Finset.ext_iff, mem_blockers]

variable {fields : List Field} {place : Place}

/-- Dependencies are fields of the list. -/
theorem lt_of_mem_dependencies (hg : fields.mapM (dependencies fields place) = .ok g) {i d : Nat}
    (hd : d ∈ g.of i) : d < g.length := by
  have hlength : fields.length = g.length := (mapM_eq_ok.1 hg).length_eq
  have hi : i < fields.length := hlength ▸ Graph.Edge.lt_length hd
  obtain ⟨k, hk, -⟩ :=
    name_mem_of_dependencies (dependencies_of hg (List.getElem?_eq_getElem hi)) hd
  exact hlength ▸ (List.getElem?_eq_some_iff.1 hk).1

/-- Counting the dependencies of a list ends within as many steps as there are fields. -/
theorem exists_countOff? (hg : fields.mapM (dependencies fields place) = .ok g) {steps : Nat}
    (hsteps : fields.length ≤ steps) :
    ∃ counts, g.countOff? steps g.counting =
        some ((g.drain fields.length (List.range fields.length)).1, counts) ∧
      counted counts = (g.drain fields.length (List.range fields.length)).2 := by
  rw [(mapM_eq_ok.1 hg).length_eq] at hsteps ⊢
  have hwaits : g.Waits (List.range g.length) :=
    ⟨List.pairwise_lt_range, fun _ => List.mem_range.1,
      fun i hi hgone => absurd (List.mem_range.2 hi) hgone⟩
  have hcount : g.countOff? steps g.counting = _ :=
    Graph.countOff?_eq (Graph.counts_counting fun _ _ => lt_of_mem_dependencies hg) hwaits
  rw [Graph.drain_of_le (by rwa [List.length_range]), List.length_range] at hcount
  refine ⟨_, hcount, counted_eq (hwaits.drain g.length) fun i hi => ?_⟩
  exact g.exists_of_stuck (List.length_range ▸ Nat.le_refl g.length) hi

/-- Where dependencies are found, all fields go or the cycle is among those with counts left. -/
theorem countedOrder?_of_graph (hg : fields.mapM (dependencies fields place) = .ok g) {steps : Nat}
    (hsteps : fields.length ≤ steps) :
    countedOrder? steps fields place = some (wireOrder fields place) := by
  obtain ⟨counts, hcount, hcounted⟩ := exists_countOff? hg hsteps
  have htotal : (g.drain fields.length (List.range fields.length)).1.length +
      (g.drain fields.length (List.range fields.length)).2.length = fields.length :=
    Graph.length_drain.trans List.length_range
  have hordered : countedOrder? steps fields place =
      g.countOff? steps g.counting >>= fun r =>
        if r.1.length < fields.length then
          some (.error (.cyclicDependency (names fields (g.cycle (counted r.2))) place))
        else some (.ok (r.1.filterMap fun i => fields[i]?)) := by
    rw [countedOrder?, hg]
    rfl
  rw [hordered, hcount, wireOrder_of_graph hg, Option.bind_eq_bind, Option.bind_some, hcounted]
  dsimp only
  cases hleft : (g.drain fields.length (List.range fields.length)).2 with
  | nil =>
    rw [hleft, List.length_nil, Nat.add_zero] at htotal
    rw [if_neg (by omega)]
    rfl
  | cons first rest =>
    rw [hleft, List.length_cons] at htotal
    rw [if_pos (by omega)]
    rfl

/-- **The wire order is what counting finds.** However many steps are allowed, as long as they are
no fewer than the fields, no count is taken below zero, and the order of the fields, or the error
with the cycle among those with counts left, is that of the list. -/
theorem countedOrder?_eq (fields : List Field) (place : Place) {steps : Nat}
    (hsteps : fields.length ≤ steps) :
    countedOrder? steps fields place = some (wireOrder fields place) := by
  cases hg : fields.mapM (dependencies fields place) with
  | error e =>
    rw [countedOrder?, wireOrder, hg]
    rfl
  | ok found => exact countedOrder?_of_graph hg hsteps

/-! ## The cycle reported -/

/-- A dependency that is not found is no cycle. -/
theorem dependencies_ne_cyclicDependency {cycle : List String} {reported : Place} :
    dependencies fields place f ≠ .error (.cyclicDependency cycle reported) := by
  intro h
  rcases bind_eq_error.1 h with hcounter | ⟨counter, -, h⟩
  · unfold counterIndex at hcounter
    split at hcounter
    · cases hcounter
    · split at hcounter <;> cases hcounter
  rcases bind_eq_error.1 h with hsiblings | ⟨siblings, -, h⟩
  · obtain ⟨p, -, hsibling⟩ := exists_of_mapM_eq_error hsiblings
    unfold siblingIndex at hsibling
    split at hsibling <;> cases hsibling
  · cases h

/-- **A reported cycle is a real one.** Where names stand once and a cycle is reported, it starts
and ends with the same field, passes no field twice in between, and each field of it depends on the
next one. It is found from the counts left when no field is ready any more: the walk from the first
field with a count left, along the first dependency of each that has one, comes back to its path
within as many steps as there are such fields; if more were allowed, it would end in the same way.
-/
theorem isSimpleCycle_of_cyclicDependency (hnodup : (fields.map (·.name)).Nodup)
    {cycle : List String} {reported : Place}
    (h : wireOrder fields place = .error (.cyclicDependency cycle reported)) :
    reported = place ∧ IsSimpleCycle (Field.DependsOn fields) cycle ∧
      ∃ (g : Graph) (order counts : List Nat) (first : Nat) (rest : List Nat),
        fields.mapM (dependencies fields place) = .ok g ∧
        g.countOff? fields.length g.counting = some (order, counts) ∧
        counted counts = first :: rest ∧
        ∀ steps, (first :: rest).length ≤ steps →
          names fields (g.followCycle (first :: rest) steps [first] first) = cycle := by
  cases hg : fields.mapM (dependencies fields place) with
  | error e =>
    rw [wireOrder, hg] at h
    cases h
    obtain ⟨f, -, hfails⟩ := exists_of_mapM_eq_error hg
    exact absurd hfails dependencies_ne_cyclicDependency
  | ok g =>
    obtain ⟨first, rest, hstuck, herror⟩ := exists_stuck_of_error hg h
    cases herror
    obtain ⟨counts, hcount, hcounted⟩ := exists_countOff? hg (Nat.le_refl fields.length)
    obtain ⟨hcycle, hrange, hmore⟩ := isSimpleCycle_of_stuck hstuck
    refine ⟨rfl, ?_, g, _, counts, first, rest, rfl, hcount, hcounted.trans hstuck,
      fun steps hsteps => by rw [hmore steps hsteps]⟩
    rw [names_eq_map hrange]
    exact hcycle.map _ (fun i j => dependsOn_of_edge hg)
      fun i hi j hj => nameAt_inj hnodup (hrange i hi) (hrange j hj)

/-- A ring of three fields, one of them an array that another counts, and a field before the ring
that waits for it. -/
def ringFields : List Field := [
  { name := "mode", format := .int .u8 },
  { name := "note", format := .string
    prerequisites := [⟨"mode", .eq, .int 1⟩, ⟨"count", .gt, .int 0⟩] },
  { name := "items", format := .array (.int .u16), sizeField? := some "count" },
  { name := "count", format := .int .u8, prerequisites := [⟨"last", .eq, .int 1⟩] },
  { name := "last", format := .int .u8, prerequisites := [⟨"items", .eq, .int 1⟩] }]

/-- The ring is reported without the field that waits for it, from which the walk starts. -/
theorem isSimpleCycle_ring :
    (ringFields.map (·.name)).Nodup ∧
      wireOrder ringFields (.container "M" .request) =
        .error (.cyclicDependency ["count", "last", "items", "count"] (.container "M" .request)) ∧
      IsSimpleCycle (Field.DependsOn ringFields) ["count", "last", "items", "count"] := by
  have hnodup : (ringFields.map (·.name)).Nodup := by decide
  have herror : wireOrder ringFields (.container "M" .request) =
      .error (.cyclicDependency ["count", "last", "items", "count"] (.container "M" .request)) := by
    decide +kernel
  exact ⟨hnodup, herror, (isSimpleCycle_of_cyclicDependency hnodup herror).2.1⟩

end WirePlan.WireOrder
