import WirePlan.Proofs.Layout.LaidOut

/-!
# The plan of a schema is laid out

The plan keeps the structs of the session that made it, all of them, in declaration order, so a
struct is found in the plan as it was in the session. Every struct of the plan is one of the schema,
laid out, and every container of a message is a declared one, laid out under the header of the
family (`Plan.laidOut_ofSchema`).
-/

namespace WirePlan

/-- The layouts of a declared container. -/
structure ContainerLaidOut (structs : StructLayouts) (variant : Variant) (message : String)
    (declared : Container) (layout : ContainerLayout) : Prop where
  kind_eq : layout.kind = declared.kind
  fields : LaidOut structs variant.headerSize declared.fields (.container message declared.kind)
    layout.fields layout.endOffset

theorem ContainerLaidOut.mono {before after : StructLayouts} {variant : Variant} {message : String}
    {declared : Container} {layout : ContainerLayout}
    (h : ContainerLaidOut before variant message declared layout) (hle : before.Extends after) :
    ContainerLaidOut after variant message declared layout :=
  ⟨h.kind_eq, h.fields.mono hle⟩

/-- The layouts of a declared message. -/
structure MessageLaidOut (structs : StructLayouts) (variant : Variant) (declared : Message)
    (layout : MessageLayout) : Prop where
  name_eq : layout.name = declared.name
  service_eq : layout.service = declared.service
  id_eq : layout.id = declared.id
  containers : List.Forall₂ (ContainerLaidOut structs variant declared.name) declared.containers
    layout.containers

theorem MessageLaidOut.mono {before after : StructLayouts} {variant : Variant} {declared : Message}
    {layout : MessageLayout} (h : MessageLaidOut before variant declared layout)
    (hle : before.Extends after) : MessageLaidOut after variant declared layout :=
  ⟨h.name_eq, h.service_eq, h.id_eq, h.containers.imp fun _ _ hc => hc.mono hle⟩

namespace Plan

variable {schema : Schema}

/-- A container is laid out. -/
theorem lays_layoutContainer (message : String) (c : Container) :
    (layoutContainer schema message c).Lays schema fun structs layout =>
      ContainerLaidOut structs schema.variant message c layout := by
  intro p p' layout h hsound
  obtain ⟨ordered, _, hordered, h⟩ := LayoutT.yields_bind.1 h
  obtain ⟨horder, rfl⟩ := LayoutT.yields_ofExcept.1 hordered
  obtain ⟨⟨fields, endOffset⟩, q, hlist, h⟩ := LayoutT.yields_bind.1 h
  obtain ⟨rfl, rfl⟩ := LayoutT.yields_pure.1 h
  have hgood := sizeOfStruct_good schema schema.nesting
  obtain ⟨hsound, hgrown, hlaid⟩ :=
    lays_layoutList hgood horder schema.variant.headerSize hlist hsound
  exact ⟨hsound, hgrown, rfl, hlaid⟩

/-- A message is laid out. -/
theorem lays_layoutMessage (m : Message) :
    (layoutMessage schema m).Lays schema fun structs layout =>
      MessageLaidOut structs schema.variant m layout := by
  intro p p' layout h hsound
  obtain ⟨containers, q, hcontainers, h⟩ := LayoutT.yields_bind.1 h
  obtain ⟨rfl, rfl⟩ := LayoutT.yields_pure.1 h
  obtain ⟨hsound, hgrown, hlaid⟩ :=
    LayoutT.lays_mapM (fun c _ => lays_layoutContainer m.name c) (fun _ _ _ _ h hle => h.mono hle)
      hcontainers hsound
  exact ⟨hsound, hgrown, rfl, rfl, rfl, hlaid⟩

/-- A struct is laid out when a session is asked for its layout. -/
theorem lays_layoutStruct (name : String) :
    (layoutStruct schema name).Lays schema fun structs layout => structs name = some layout := by
  intro p p' layout h hsound
  obtain ⟨_, q, hsize, h⟩ := LayoutT.yields_bind.1 h
  obtain ⟨size, hsize, -⟩ := LayoutT.yields_map.1 hsize
  obtain ⟨hsound, hgrown, -⟩ := sizeOfStruct_good schema schema.nesting name name hsize hsound
  obtain ⟨_, _, hget, h⟩ := LayoutT.yields_bind.1 h
  obtain ⟨rfl, rfl⟩ := LayoutT.yields_get.1 hget
  split at h
  · next found hfound =>
    obtain ⟨rfl, rfl⟩ := LayoutT.yields_pure.1 h
    exact ⟨hsound, hgrown, hfound⟩
  · exact absurd h LayoutT.yields_throw

/-- All structs and messages are laid out. -/
theorem lays_layoutMessages :
    (layoutMessages schema).Lays schema fun structs layouts =>
      (∀ t ∈ schema.structs, ∃ layout, structs t.name = some layout) ∧
      List.Forall₂ (MessageLaidOut structs schema.variant) schema.messages layouts := by
  intro p p' layouts h hsound
  obtain ⟨_, q, hstructs, h⟩ := LayoutT.yields_bind.1 h
  obtain ⟨_, hstructs, -⟩ := LayoutT.yields_map.1 hstructs
  have hlays : ∀ t ∈ schema.structs, (layoutStruct schema t.name).Lays schema
      fun structs layout => structs t.name = some layout := fun t _ => lays_layoutStruct t.name
  obtain ⟨hsound, hgrown, hall⟩ :=
    LayoutT.lays_mapM hlays (fun _ _ _ _ h hle => hle _ _ h) hstructs hsound
  obtain ⟨hsound, hgrown', hlaid⟩ :=
    LayoutT.lays_mapM (fun m _ => lays_layoutMessage m) (fun _ _ _ _ h hle => h.mono hle) h hsound
  refine ⟨hsound, hgrown.trans hgrown', fun t ht => ?_, hlaid⟩
  obtain ⟨layout, -, hlayout⟩ := exists_of_mem_left hall ht
  exact ⟨layout, hgrown'.extends_ _ _ hlayout⟩

end Plan

/-- A struct is found among those of a session in declaration order as the session finds it. -/
theorem LayoutSession.find?_structs {l : LayoutSession} (hsound : l.progress.Sound l.schema)
    (name : String) : l.structs.find? (·.name = name) = l.progress.struct? name := by
  have hkept : ∀ layout ∈ l.structs, l.progress.struct? layout.name = some layout := by
    intro layout hlayout
    obtain ⟨s, -, hs⟩ := List.mem_filterMap.1 hlayout
    rw [(hsound _ _ hs).1]
    exact hs
  cases hfind : l.structs.find? (·.name = name) with
  | some layout =>
    have hname : layout.name = name := by simpa using List.find?_some hfind
    rw [← hname]
    exact (hkept layout (List.mem_of_find?_eq_some hfind)).symm
  | none =>
    cases hlayout : l.progress.struct? name with
    | none => rfl
    | some layout =>
      obtain ⟨hname, ⟨s, hs, -⟩, -⟩ := hsound _ _ hlayout
      rw [hname] at hs
      have hmem : layout ∈ l.structs := by
        have hsname : s.name = name := by simpa using List.find?_some hs
        exact List.mem_filterMap.2 ⟨s, List.mem_of_find?_eq_some hs, by rw [hsname, hlayout]⟩
      exact absurd hname (by simpa using List.find?_eq_none.1 hfind layout hmem)

/-- A session that has laid out every struct has them in declaration order. -/
theorem LayoutSession.forall₂_structs {l : LayoutSession}
    (hall : ∀ t ∈ l.schema.structs, ∃ layout, l.progress.struct? t.name = some layout) :
    List.Forall₂ (fun t layout => l.progress.struct? t.name = some layout) l.schema.structs
      l.structs := by
  unfold structs
  generalize l.schema.structs = declared at hall ⊢
  induction declared with
  | nil => exact .nil
  | cons t rest ih =>
    obtain ⟨layout, hlayout⟩ := hall t (.head _)
    rw [List.filterMap_cons, hlayout]
    exact .cons hlayout (ih fun s hs => hall s (.tail _ hs))

/-- **A plan is laid out**: its structs and its messages are those of the schema, each list of
fields in wire order, placed, and sized. -/
theorem Plan.laidOut_ofSchema {schema : Schema} {plan : Plan} (h : ofSchema schema = .ok plan) :
    (∀ name layout, plan.struct? name = some layout →
      layout.name = name ∧ StructLaidOut schema plan.struct? layout) ∧
    List.Forall₂ (fun t layout => plan.struct? t.name = some layout) schema.structs plan.structs ∧
    List.Forall₂ (MessageLaidOut plan.struct? schema.variant) schema.messages plan.messages := by
  rw [ofSchema_eq] at h
  unfold ofSession at h
  split at h
  · next messages session hrun =>
    cases h
    have hyields := LayoutSession.yields_of_run hrun
    obtain ⟨hsound, -, hall, hmessages⟩ :=
      lays_layoutMessages hyields (LayoutProgress.sound_empty schema)
    have hschema : session.schema = schema := (congrArg (·.2.schema) hrun).symm
    have hfound : ∀ name, session.structs.find? (·.name = name) = session.progress.struct? name :=
      LayoutSession.find?_structs (hschema ▸ hsound)
    have hstructs : Plan.struct?
        { service := schema.service, variant := schema.variant, client? := schema.client?
          messageIds? := schema.messageIds?, messages, structs := session.structs } =
        session.progress.struct? := funext hfound
    rw [hstructs]
    subst hschema
    exact ⟨hsound, LayoutSession.forall₂_structs hall, hmessages⟩
  · cases h

end WirePlan
