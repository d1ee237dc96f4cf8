import WirePlan.Proofs.Codec.Acceptance
import WirePlan.Proofs.Codec.Truncation

/-!
# What can be encoded

A container is encoded exactly if its values can be (`Encodable`): arrays are counted, strings and
values under headers are not too long, and no struct behind the container starts where a slot cannot
tell. All of this is told from the values, whatever the encoder does with them.

The structs behind the container are accepted one after the other (`decides_encodePointees`), one
generation after the other (`decides_encodeLevels`). There are never more generations than the
encoder has levels, as each nests less deep than the one before.

Canonical dictionaries are of the right shape (`everywhere_shaped`). Besides, the encoder evaluates
the prerequisites of all fields, also of those that are absent. Where it comes to compare a value
with a name, nothing is encoded.
-/

namespace WirePlan

/-- Structs one behind the other from a place on start each where a slot can tell. -/
def Remote.InReach (structs : StructLayouts) : (start : Nat) → List Remote → Prop
  | _, [] => True
  | start, r :: rest =>
    start < UInt32.size ∧ InReach structs (start + (r.extent structs).size) rest

/-- The values of a container can be encoded. -/
structure Encodable (plan : Plan) (container : ContainerLayout) (values : Fields) : Prop where
  /-- Arrays are counted and strings are not too long, at every level. -/
  suits : Everywhere plan.struct? Suits container.fields values
  /-- No value is too long for its header. -/
  headers : plan.variant = .tlv → ∀ f ∈ container.fields, ∀ v, values.find? f.name = some v →
    (v.extent plan.struct? f).size < UInt16.size
  /-- The structs behind the container, in all generations, start where slots can tell. -/
  starts : ∀ levels, Remote.InReach plan.struct?
    (listExtent plan.struct? container.fields values).size
    (Remote.generations plan.struct? levels
      (listExtent plan.struct? container.fields values).remotes)

namespace Codec

/-! ## Structs behind a container -/

section Behind

variable {structs : StructLayouts}

theorem inReach_append {start : Nat} {rs more : List Remote} :
    Remote.InReach structs start (rs ++ more) ↔ Remote.InReach structs start rs ∧
      Remote.InReach structs (start + (Extent.join (rs.map (Remote.extent structs))).size)
        more := by
  induction rs generalizing start with
  | nil => simp [Remote.InReach]
  | cons r rest ih => simp [Remote.InReach, ih, and_assoc, Nat.add_assoc]

/-- Structs one behind the other from a place on start where slots can tell, and all inline in them
suits. -/
def SuitsBehind (structs : StructLayouts) (start : Nat) (rs : List Remote) : Prop :=
  Remote.InReach structs start rs ∧ ∀ r ∈ rs, Inline structs Suits r.layout.members r.members

theorem suitsBehind_nil (start : Nat) : SuitsBehind structs start [] :=
  ⟨trivial, fun _ hr => absurd hr List.not_mem_nil⟩

theorem suitsBehind_append {start : Nat} {rs more : List Remote} :
    SuitsBehind structs start (rs ++ more) ↔ SuitsBehind structs start rs ∧
      SuitsBehind structs (start + (Extent.join (rs.map (Remote.extent structs))).size) more := by
  rw [SuitsBehind, inReach_append, List.forall_mem_append, and_and_and_comm]
  rfl

/-- The first generation comes first, then those behind it. -/
theorem suitsBehind_generations {start : Nat} {rs : List Remote} :
    (∀ k, SuitsBehind structs start (Remote.generations structs k rs)) ↔
      SuitsBehind structs start rs ∧
        ∀ k, SuitsBehind structs (start + (Extent.join (rs.map (Remote.extent structs))).size)
          (Remote.generations structs k
            (Extent.join (rs.map (Remote.extent structs))).remotes) := by
  constructor
  · intro h
    exact ⟨(suitsBehind_append.1 (h 1)).1, fun k => (suitsBehind_append.1 (h (k + 1))).2⟩
  · rintro ⟨hfirst, hrest⟩ k
    cases k with
    | zero => exact suitsBehind_nil start
    | succ k => exact suitsBehind_append.2 ⟨hfirst, hrest k⟩

/-- What slots lead to is formed, if the dictionary is shaped. -/
theorem formed_of_mem_remotes {fields : List PlacedField} {values : Fields}
    (hshaped : Everywhere structs (Shaped structs) fields values) {r : Remote}
    (hr : r ∈ (listExtent structs fields values).remotes) : Formed structs r.layout r.members := by
  have hadmits : Everywhere structs (fun f _ v => f.format.Admits v) fields values :=
    hshaped.mono (fun _ => id) fun _ _ _ h => h.admitted
  obtain ⟨f, siblings, v, t, hshape, hmembers, htype, hlayout, hinside⟩ :=
    exists_of_mem_remotes hadmits hshaped hr
  exact ⟨hshape.keys r.members hmembers t r.layout htype hlayout, hinside⟩

variable {c : Codec}

/-- The element is of a struct that nests less deep than the encoder goes in it, which is no deeper
than a bound, and it is formed. -/
structure Ready (c : Codec) (bound : Nat) (p : Pointee) : Prop where
  depth_le : p.depth ≤ bound
  shallow : ∃ t, c.plan.struct? t = some p.layout ∧
    StructLayouts.Shallow c.plan.struct? p.depth t
  formed : Formed c.plan.struct? p.layout p.values

/-- The elements of slots are ready, if what the slots lead to is formed. -/
theorem ready_of_gives {bound : Nat} {e : Extent} {pieces : List Piece}
    (h : Gives c (bound + 1) e pieces)
    (hformed : ∀ r ∈ e.remotes, Formed c.plan.struct? r.layout r.members) :
    ∀ p ∈ Piece.pointees pieces, Ready c bound p := by
  intro p hp
  obtain ⟨hdepth, hshallow⟩ := h.shallow p hp
  refine ⟨Nat.le_of_lt_succ hdepth, hshallow, hformed p.remote ?_⟩
  rw [← h.remotes]
  exact List.mem_map_of_mem hp

variable (hplan : c.plan.WellFormed)

include hplan

/-- **Elements are accepted one after the other**, if each starts where a slot can tell and all
inline in it suits. -/
theorem decides_encodePointees {bound : Nat} {ps : List Pointee} (hps : ∀ p ∈ ps, Ready c bound p)
    (start : Nat) :
    Decides (encodePointees c start ps)
      (SuitsBehind c.plan.struct? start (ps.map Pointee.remote))
      (fun found => Gives c bound
        (.join ((ps.map Pointee.remote).map (Remote.extent c.plan.struct?))) found.2) := by
  induction ps generalizing start with
  | nil => exact decides_ok (suitsBehind_nil start) gives_nil
  | cons p ps ih =>
    obtain ⟨⟨hdepth, ⟨t, ht, hshallow⟩, hformed⟩, hrest⟩ := List.forall_mem_cons.1 hps
    unfold encodePointees
    split
    · next hslot =>
      have hparts : SuitsBehind c.plan.struct? start ((p :: ps).map Pointee.remote) ↔
          Inline c.plan.struct? Suits p.layout.members p.values ∧
            SuitsBehind c.plan.struct? (start + (p.remote.extent c.plan.struct?).size)
              (ps.map Pointee.remote) := by
        rw [List.map_cons, SuitsBehind, List.forall_mem_cons, Remote.InReach]
        exact ⟨fun h => ⟨h.2.1, h.1.2, h.2.2⟩, fun h => ⟨⟨hslot, h.2.1⟩, h.1, h.2.2⟩⟩
      rw [hparts]
      refine (decides_encodeStruct hplan p.depth ht hshallow hformed start).bind
        fun pieces _ hpieces => ?_
      have hsize : Piece.size pieces = (p.remote.extent c.plan.struct?).size := hpieces.size
      rw [← hsize]
      refine (ih hrest (start + Piece.size pieces)).map fun found hfound => ?_
      exact (hpieces.mono hdepth).append hfound
    · next hfar => exact decides_error (fun h => hfar h.1.1) trivial

/-- **Elements are accepted generation after generation.** The induction is on the levels. -/
theorem decides_encodeLevels {levels : Nat} {ps : List Pointee} (hps : ∀ p ∈ ps, Ready c levels p)
    (start : Nat) :
    Decides (encodeLevels c levels start ps)
      (∀ k, SuitsBehind c.plan.struct? start
        (Remote.generations c.plan.struct? k (ps.map Pointee.remote))) (fun _ => True) := by
  induction levels generalizing ps start with
  | zero =>
    cases ps with
    | nil => exact decides_ok (fun k => by simpa using suitsBehind_nil start) trivial
    | cons p ps =>
      obtain ⟨hdepth, ⟨t, ht, hshallow⟩, -⟩ := hps p (.head _)
      rw [Nat.le_zero.1 hdepth] at hshallow
      cases hshallow.symm.trans ht
  | succ levels ih =>
    cases ps with
    | nil => exact decides_ok (fun k => by simpa using suitsBehind_nil start) trivial
    | cons p ps =>
      rw [suitsBehind_generations]
      unfold encodeLevels
      refine (decides_encodePointees hplan hps start).bind fun found _ hfound => ?_
      rw [← hfound.size, ← hfound.remotes]
      refine (ih (ready_of_gives hfound fun r hr => ?_) (start + Piece.size found.2)).map
        fun _ _ => trivial
      obtain ⟨_, hmem, hr⟩ := Extent.mem_remotes_join.1 hr
      obtain ⟨parent, hparent, rfl⟩ := List.mem_map.1 hmem
      obtain ⟨q, hq, rfl⟩ := List.mem_map.1 hparent
      exact formed_of_mem_remotes (hps q hq).formed.shaped hr

end Behind

/-! ## Containers -/

/-- What can be encoded suits inline and behind. -/
theorem encodable_iff {plan : Plan} {container : ContainerLayout} {values : Fields}
    (hshaped : Everywhere plan.struct? (Shaped plan.struct?) container.fields values) :
    Encodable plan container values ↔
      (Inline plan.struct? Suits container.fields values ∧ (plan.variant.headerSize ≠ 0 →
        ∀ f ∈ container.fields, ∀ v, values.find? f.name = some v →
          (v.extent plan.struct? f).size < UInt16.size)) ∧
      ∀ k, SuitsBehind plan.struct? (listExtent plan.struct? container.fields values).size
        (Remote.generations plan.struct? k
          (listExtent plan.struct? container.fields values).remotes) := by
  have hadmits : Everywhere plan.struct? (fun f _ v => f.format.Admits v) container.fields values :=
    hshaped.mono (fun _ => id) fun _ _ _ h => h.admitted
  have htlv : plan.variant.headerSize ≠ 0 ↔ plan.variant = .tlv := by
    cases plan.variant <;> simp [Variant.headerSize]
  constructor
  · intro h
    obtain ⟨hinline, hbehind⟩ := (everywhere_iff_inline hadmits).1 h.suits
    exact ⟨⟨hinline, fun hsome => h.headers (htlv.1 hsome)⟩, fun k => ⟨h.starts k, hbehind k⟩⟩
  · rintro ⟨⟨hinline, hheaders⟩, hbehind⟩
    exact {
      suits := (everywhere_iff_inline hadmits).2 ⟨hinline, fun k => (hbehind k).2⟩
      headers := fun hsome => hheaders (htlv.2 hsome)
      starts := fun k => (hbehind k).1 }

/-- **A container is encoded if its values can be.** -/
theorem decides_encode {c : Codec} (hplan : c.plan.WellFormed)
    (hshallow : ∀ name, StructLayouts.Shallow c.plan.struct? c.nesting name) {m : MessageLayout}
    (hm : m ∈ c.plan.messages) {container : ContainerLayout} (hcontainer : container ∈ m.containers)
    (hfits : fixedBytes container.fields < UInt64.size) {values : Fields}
    (hpresent : ∀ f ∈ container.fields, Prerequisite.allHold f.prerequisites values =
      .ok (values.find? f.name).isSome)
    (hshaped : Everywhere c.plan.struct? (Shaped c.plan.struct?) container.fields values) :
    Decides (c.encode container values) (Encodable c.plan container values) (fun _ => True) := by
  have hstart : Fits {} 0 container.fields := .inl (by simpa using hfits)
  rw [encodable_iff hshaped]
  refine (decides_wellPlaced hplan (decides_encodeStruct hplan c.nesting)
    (headerSize_eq c.plan.variant) (hplan.containers m hm container hcontainer) hstart
    (fun f _ t _ => hshallow t) hpresent hshaped).bind fun inline _ hinline => ?_
  rw [← hinline.size, ← hinline.remotes]
  exact (decides_encodeLevels hplan
    (ready_of_gives hinline fun r hr => formed_of_mem_remotes hshaped hr) _).map fun _ _ => trivial

end Codec

/-! ## Canonical dictionaries -/

section Canonical

variable {structs : StructLayouts} {type? : Option String} {members : Fields}

/-- Exact items are exact one by one. -/
theorem ExactItems.of_mem {items : List Value} (h : ExactItems structs type? items) {v : Value}
    (hv : v ∈ items) : v.Exact structs type? := by
  induction items with
  | nil => cases hv
  | cons first rest ih =>
    rw [ExactItems] at h
    rcases List.mem_cons.1 hv with rfl | hrest
    · exact h.1
    · exact ih h.2 hrest

/-- Structs in exact entries are exact. -/
theorem Value.Exact.of_mem_structs {v : Value} (h : v.Exact structs type?)
    (hmembers : members ∈ v.structs) : (Value.struct members).Exact structs type? := by
  cases v with
  | struct fields =>
    cases List.mem_singleton.1 hmembers
    exact h
  | array items =>
    rw [Value.Exact] at h
    obtain ⟨item, hitem, hfields⟩ := List.mem_filterMap.1 hmembers
    cases Codec.fields?_eq_some.1 hfields
    exact h.of_mem hitem
  | int | uuid | string | ipv4 | ipv6 => cases hmembers

/-- The entries of exact fields are exact. -/
theorem ExactFields.exact_of_find? {fields : List PlacedField} {values : Fields}
    (h : ExactFields structs fields values) {f : PlacedField} (hf : f ∈ fields) {v : Value}
    (hv : values.find? f.name = some v) : v.Exact structs f.structType? := by
  induction values with
  | nil => cases hv
  | cons e rest ih =>
    obtain ⟨key, value⟩ := e
    rw [ExactFields] at h
    rw [Keyed.find?] at hv
    split at hv
    · next hkey =>
      cases hv
      exact h.1 f hf hkey.symm
    · exact ih h.2 hv

/-- Exact entries of the constructors that their formats demand are shaped. -/
theorem everywhere_shaped {fields : List PlacedField} {values : Fields}
    (h : Everywhere structs (fun f _ v => f.format.Admits v) fields values)
    (hexact : ExactFields structs fields values) :
    Everywhere structs (Shaped structs) fields values := by
  induction h with
  | @intro fields values hadmitted _ ih =>
    have hstruct : ∀ f ∈ fields, ∀ v, values.find? f.name = some v → ∀ members ∈ v.structs,
        ∀ t layout, f.structType? = some t → structs t = some layout →
        (∀ name, name ∈ Keyed.keys members ↔ name ∈ layout.members.map (·.name)) ∧
          ExactFields structs layout.members members := by
      intro f hf v hv members hmembers t layout htype hlayout
      have hmember := (hexact.exact_of_find? hf hv).of_mem_structs hmembers
      rw [Value.Exact] at hmember
      exact (hmember layout (by rw [htype, Option.bind_some, hlayout])).2
    refine .intro (fun f hf v hv => ⟨hadmitted f hf v hv, ?_⟩) ?_
    · exact fun members hmembers t layout htype hlayout =>
        (hstruct f hf v hv members hmembers t layout htype hlayout).1
    · exact fun f hf hinto v hv members hmembers t layout htype hlayout =>
        ih f hf hinto v hv members hmembers t layout htype hlayout
          (hstruct f hf v hv members hmembers t layout htype hlayout).2

/-- A canonical dictionary has entries for the fields on the wire, where presence is decided. -/
theorem allHold_of_canonical {fields : List PlacedField} (hnodup : (fields.map (·.name)).Nodup)
    {values : Fields} (hcanonical : Canonical structs fields values) {f : PlacedField}
    (hf : f ∈ fields)
    (hdecided : ∃ holds, Prerequisite.allHold f.prerequisites values = .ok holds) :
    Prerequisite.allHold f.prerequisites values = .ok (values.find? f.name).isSome := by
  obtain ⟨holds, hholds⟩ := hdecided
  have hkey : f.name ∈ Keyed.keys values ↔ holds = true := by
    rw [hcanonical.keys]
    constructor
    · rintro ⟨g, hg, hname, hpresent⟩
      cases List.inj_on_of_nodup_map hnodup hg hf hname
      exact Except.ok.inj (hholds.symm.trans hpresent)
    · rintro rfl
      exact ⟨f, hf, rfl, hholds⟩
  rw [hholds, Bool.eq_iff_iff.2 (hkey.symm.trans Keyed.isSome_find?.symm)]

end Canonical

/-- A count and indirect elements have the constructors that their formats demand, if all that is
inside the elements has. -/
theorem everywhere_indirect {structs : StructLayouts} {name element : String}
    (hname : name ≠ "count") {layout : StructLayout} (hlayout : structs element = some layout)
    (n : Nat) {elements : List Fields}
    (h : ∀ members ∈ elements,
      Everywhere structs (fun f _ v => f.format.Admits v) layout.members members) :
    Everywhere structs (fun f _ v => f.format.Admits v) (indirectFields name element)
      [("count", .ofNat .u8 n), (name, .array (elements.map .struct))] := by
  refine throughout_iff.2 fun f hf v hv => ?_
  simp only [indirectFields, List.mem_cons, List.not_mem_nil, or_false] at hf
  rcases hf with rfl | rfl
  · cases hv
    exact ⟨⟨.int .u8, rfl, rfl⟩, fun _ _ hmembers => absurd hmembers List.not_mem_nil⟩
  · simp only [Keyed.find?, if_neg hname.symm, if_true, Option.some.injEq] at hv
    subst hv
    refine ⟨fun item hitem => ?_, fun _ members hmembers t found htype hfound => ?_⟩
    · obtain ⟨members, -, rfl⟩ := List.mem_map.1 hitem
      exact ⟨members, rfl⟩
    · cases htype
      cases hlayout.symm.trans hfound
      obtain ⟨item, hitem, hfields⟩ := List.mem_filterMap.1 hmembers
      obtain ⟨inner, hinner, rfl⟩ := List.mem_map.1 hitem
      cases hfields
      exact h _ hinner

/-- What a tree with these leaves consists of. -/
def treeMembers (leaves : List Nat) : Fields :=
  [("count", .ofNat .u8 leaves.length),
    ("leaves", .array ((leaves.map fun n => [("value", .ofNat .u8 n)]).map .struct))]

/-- The values of a tree have the constructors that their formats demand. -/
theorem admits_tree (leaves : List Nat) :
    Everywhere forestPlan.struct? (fun f _ v => f.format.Admits v) (indirectFields "leaves" "Leaf")
      (treeMembers leaves) := by
  refine everywhere_indirect (by decide) rfl leaves.length fun members hmembers => ?_
  obtain ⟨n, -, rfl⟩ := List.mem_map.1 hmembers
  refine throughout_iff.2 fun f hf v hv => ?_
  cases List.mem_singleton.1 hf
  cases hv
  exact ⟨⟨.int .u8, rfl, rfl⟩, fun _ _ hmembers => absurd hmembers List.not_mem_nil⟩

/-- A service with one container, in which a number is gated by a name. -/
def modeSource : String :=
  "[\x7b\"type\": \"Service\", \"name\": \"S\"\x7d,
    \x7b\"type\": \"Message\", \"name\": \"M\", \"id\": 1, \"request\": [
      \x7b\"name\": \"mode\", \"format\": \"guint8\"\x7d,
      \x7b\"name\": \"detail\", \"format\": \"guint8\",
        \"prerequisites\": [
          \x7b\"field\": \"mode\", \"operation\": \"==\", \"value\": \"ONLINE\"\x7d]\x7d]\x7d]"

/-- Its container. -/
def modeContainer : ContainerLayout where
  kind := .request
  fields := [
    { name := "mode", format := .int .u8, header := 0, offset := {}, size := .fixed 1 },
    { name := "detail", format := .int .u8, prerequisites := [⟨"mode", .eq, .name "ONLINE"⟩]
      header := 0, offset := { constant := 1 }, size := .fixed 1 }]
  endOffset := ⟨2, [.absence "detail" 1]⟩

/-- Its plan. -/
def modePlan : Plan where
  service := "S"
  variant := .fixed
  messages := [⟨"M", "S", 1, [modeContainer]⟩]
  structs := []

set_option maxRecDepth 4096 in
theorem modePlan_eq : Plan.ofSource modeSource {} = .ok modePlan := by
  refine (Plan.ofSource_ofList _ {}).trans (toOption_eq_some.1 ?_)
  decide +kernel

/-- A mode, and nothing that it gates. -/
def modeValues : Fields := [("mode", .ofNat .u8 1)]

/-- A prerequisite that cannot be evaluated does not hold, so there is nothing that it gates. -/
theorem canonical_mode : Canonical modePlan.struct? modeContainer.fields modeValues where
  sorted := List.pairwise_singleton _ _
  keys name := by
    simp only [modeContainer, List.mem_cons, List.not_mem_nil, or_false, exists_eq_or_imp,
      exists_eq_left]
    constructor
    · intro hname
      exact .inl ⟨(List.mem_singleton.1 hname).symm, rfl⟩
    · rintro (⟨rfl, -⟩ | ⟨-, hholds⟩)
      · exact .head _
      · cases hholds
  exactFields := ⟨fun _ _ _ => trivial, trivial⟩

/-- What holds of the mode holds everywhere. -/
theorem everywhere_mode {holds : PlacedField → Fields → Value → Prop}
    (h : ∀ f ∈ modeContainer.fields, holds f modeValues (.ofNat .u8 1)) :
    Everywhere modePlan.struct? holds modeContainer.fields modeValues := by
  refine throughout_iff.2 fun f hf v hv => ?_
  have hsame : v = .ofNat .u8 1 := by
    rw [modeValues, Keyed.find?] at hv
    split at hv
    · exact (Option.some.inj hv).symm
    · cases hv
  subst hsame
  exact ⟨h f hf, fun _ _ hmembers => absurd hmembers List.not_mem_nil⟩

theorem encodable_mode : Encodable modePlan modeContainer modeValues where
  suits := everywhere_mode fun _ _ => {
    counted := by rintro _ ⟨⟩
    texts := fun _ htext => absurd htext List.not_mem_nil }
  headers := by rintro ⟨⟩
  starts levels := by
    have hremotes :
        (listExtent modePlan.struct? modeContainer.fields modeValues).remotes = [] := rfl
    rw [hremotes, Remote.generations_nil]
    trivial

end WirePlan
