import WirePlan.Proofs.Layout.Nesting
import WirePlan.Proofs.Plan.WellFormed

/-!
# Only cycles keep a schema from being planned

A checked schema has a plan exactly if no struct embeds itself and no container has fields that
depend on each other in a cycle; where it has none, the error names such a struct or such a cycle
(`Plan.exists_ofSchema_iff`). That nothing else goes wrong comes from what checking guarantees
(`Field.Linked`): in a session that has left no struct under way (`LayoutProgress.Idle`), sizing
structs can only meet one that embeds itself (`ends_sizeOfStruct`), and ordering fields can only
meet a cycle (`WireOrder.isCycle_of_error`). In turn a session that has finished every struct leaves
none that embeds itself (`LayoutProgress.Nested.founded`), and fields that were ordered have no
cycle (`WireOrder.exists_wireOrder_iff`).
-/

namespace WirePlan

/-- The error names a struct that embeds itself, or the fields of a cycle in a container. -/
def Schema.Blocked (schema : Schema) (error : SchemaError) : Prop :=
  schema.Recursive error ∨ ∃ m ∈ schema.messages, ∃ c ∈ m.containers, ∃ cycle,
    error = .cyclicDependency cycle (.container m.name c.kind) ∧
      IsCycle (Field.DependsOn c.fields) cycle

/-- With nothing under way before, a session meets a struct that embeds itself. -/
theorem Schema.CaughtAmong.recursive {schema : Schema} {fields : List Field} {error : SchemaError}
    {p : LayoutProgress} (h : schema.CaughtAmong [] fields error p) : schema.Recursive error := by
  obtain ⟨_, _, _, _, -, -, -, hcaught⟩ := h
  exact hcaught.recursive

namespace Plan

variable {schema : Schema} (hchecked : schema.Checked) (hlinked : schema.Linked)

include hchecked hlinked

/-- A container is laid out, or has a cycle, or a struct embeds itself. -/
theorem ends_layoutContainer {m : Message} (hm : m ∈ schema.messages) {c : Container}
    (hc : c ∈ m.containers) {p : LayoutProgress} (hp : p.Idle schema []) :
    (layoutContainer schema m.name c).Ends p (fun _ p' => p'.Idle schema [])
      fun error _ => schema.Blocked error := by
  have hfields := hlinked.containers m hm c hc
  refine hp.ends (lays_layoutContainer m.name c)
    (LayoutT.ends_ofExcept_bind (fun ordered horder => ?_) fun error herror => ?_)
  · have hlist := ends_layoutList
      (sizeOfStruct_good schema schema.nesting)
      (ends_sizeOfStruct hchecked hlinked schema.nesting)
      (WireOrder.inOrder_of_wireOrder horder (hchecked.containers m hm c hc).nodup)
      (fun f hf => hfields f (WireOrder.mem_of_wireOrder horder hf))
      hp.nested schema.variant.headerSize (.container m.name c.kind)
    rw [hp.underWay] at hlist
    exact LayoutT.ends_bind (hlist.mono fun _ _ hcaught => .inl hcaught.recursive)
      fun _ _ _ hq => LayoutT.ends_pure hq
  · obtain ⟨cycle, rfl, hcycle⟩ := WireOrder.isCycle_of_error
      (fun f hf _ hd => (hfields f hf).exists_of_dependency hd) herror
    exact .inr ⟨m, hm, c, hc, cycle, rfl, hcycle⟩

/-- A message is laid out, or one of its containers has a cycle, or a struct embeds itself. -/
theorem ends_layoutMessage {m : Message} (hm : m ∈ schema.messages) {p : LayoutProgress}
    (hp : p.Idle schema []) :
    (layoutMessage schema m).Ends p (fun _ p' => p'.Idle schema [])
      fun error _ => schema.Blocked error := by
  refine LayoutT.ends_bind (LayoutT.ends_mapM (fun c hc q hq => ?_) hp) fun _ _ _ hq => ?_
  · exact ends_layoutContainer hchecked hlinked hm hc hq
  · exact LayoutT.ends_pure hq

/-- A declared struct is laid out when a session is asked for its layout, or one embeds itself. -/
theorem ends_layoutStruct {t : Struct} (ht : t ∈ schema.structs) {p : LayoutProgress}
    (hp : p.Idle schema []) :
    (layoutStruct schema t.name).Ends p (fun _ p' => p'.Idle schema [])
      fun error _ => schema.Blocked error := by
  have hsize := ends_sizeOfStruct hchecked hlinked schema.nesting t.name t.name p hp.nested
    (List.mem_map_of_mem ht)
  rw [hp.underWay] at hsize
  refine hp.ends (lays_layoutStruct t.name) (LayoutT.ends_bind
    (LayoutT.ends_discard (hsize.mono fun _ _ hcaught => .inl hcaught.recursive))
    fun _ q hyields hq => ?_)
  obtain ⟨size, hyields, -⟩ := LayoutT.yields_map.1 hyields
  obtain ⟨-, -, layout, hlayout, -⟩ :=
    sizeOfStruct_good schema schema.nesting t.name t.name hyields hp.nested.sound
  refine LayoutT.ends_get_bind ?_
  rw [hlayout]
  exact LayoutT.ends_pure hq

/-- All structs and messages are laid out, or a container has a cycle, or a struct embeds itself. -/
theorem ends_layoutMessages :
    (layoutMessages schema).Ends {} (fun _ p' => p'.Idle schema [])
      fun error _ => schema.Blocked error := by
  have hstart := LayoutProgress.idle_empty schema
  refine LayoutT.ends_bind (LayoutT.ends_discard (LayoutT.ends_mapM (fun t ht p hp => ?_) hstart))
    fun _ q _ hq => ?_
  · exact ends_layoutStruct hchecked hlinked ht hp
  · exact LayoutT.ends_mapM (fun m hm p hp => ends_layoutMessage hchecked hlinked hm hp) hq

/-- What keeps a checked schema from being planned is a cycle. -/
theorem blocked_of_ofSchema {error : SchemaError} (h : ofSchema schema = .error error) :
    schema.Blocked error := by
  rw [ofSchema_eq] at h
  unfold ofSession at h
  split at h
  · cases h
  · next e session hrun =>
    cases h
    exact LayoutSession.expected_of_run (ends_layoutMessages hchecked hlinked) hrun

/-- Where a checked schema has a plan, whatever a struct embeds is founded before the struct. -/
theorem wellFounded_embeds {plan : Plan} (h : ofSchema schema = .ok plan) :
    WellFounded fun b a => schema.Embeds a b := by
  rw [ofSchema_eq] at h
  unfold ofSession at h
  split at h
  · next messages session hrun =>
    have hyields := LayoutSession.yields_of_run hrun
    have hidle := (ends_layoutMessages hchecked hlinked).yields _ _ hyields
    obtain ⟨-, -, hall, -⟩ := lays_layoutMessages hyields (LayoutProgress.sound_empty schema)
    refine ⟨fun name => Acc.intro name ?_⟩
    rintro b ⟨t, ht, rfl, hb⟩
    obtain ⟨layout, hlayout⟩ := hall t ht
    exact (hidle.nested.founded t.name layout hlayout).inv ⟨t, ht, rfl, hb⟩
  · cases h

/-- Where a checked schema has a plan, no struct embeds itself. -/
theorem acyclic_embeds {plan : Plan} (h : ofSchema schema = .ok plan) :
    Acyclic schema.Embeds :=
  fun name => not_transGen_of_acc ((wellFounded_embeds hchecked hlinked h).apply name)

/-- Where a checked schema has a plan, no container has a cycle. -/
theorem acyclic_dependsOn {plan : Plan} (h : ofSchema schema = .ok plan) {m : Message}
    (hm : m ∈ schema.messages) {c : Container} (hc : c ∈ m.containers) :
    Acyclic (Field.DependsOn c.fields) := by
  obtain ⟨-, -, hmessages⟩ := laidOut_ofSchema h
  obtain ⟨_, -, hmessage⟩ := exists_of_mem_left hmessages hm
  obtain ⟨_, -, hcontainer⟩ := exists_of_mem_left hmessage.containers hc
  exact (WireOrder.exists_wireOrder_iff (hchecked.containers m hm c hc).nodup
    fun f hf _ hd => (hlinked.containers m hm c hc f hf).exists_of_dependency hd).1
    ⟨_, hcontainer.fields.order⟩

end Plan

/-- A tree whose nodes embed their branches, and these embed nodes. -/
def treeExpanded : Expanded where
  names := { service? := some "S" }
  structs := [
    ⟨"Node", [
      { name := "count", format := "guint8" },
      { name := "branches", format := "struct-array", sizeField? := some "count"
        structType? := some "Branch" }]⟩,
    ⟨"Branch", [{ name := "node", format := "struct", structType? := some "Node" }]⟩]

/-- Its schema. -/
def treeSchema : Schema where
  service := "S"
  variant := .fixed
  messages := []
  structs := [
    { name := "Node"
      members := [
        { name := "count", format := .int .u8 },
        { name := "branches", format := .structArray, sizeField? := some "count"
          structType? := some "Branch" }]
      usage := { embedded := true } },
    { name := "Branch"
      members := [{ name := "node", format := .struct, structType? := some "Node" }]
      usage := { arrayMember := true } }]

end WirePlan
