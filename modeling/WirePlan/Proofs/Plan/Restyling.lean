import WirePlan.Plan.Generation
import WirePlan.Proofs.Layout.Restyling

/-!
# Looks that plans do not depend on

The plan of a restyled schema is the plan of the schema, restyled (`Plan.ofSchema_restyle`), and so
is that of restyled declarations (`Plan.ofExpanded_restyle`): neither the checks nor the layouts see
a restyling.
-/

namespace WirePlan

variable (r : Restyling)

/-- The layout restyled. -/
def ContainerLayout.restyle (c : ContainerLayout) : ContainerLayout :=
  { c with fields := c.fields.map (·.restyle r) }

/-- The layout restyled. -/
def MessageLayout.restyle (m : MessageLayout) : MessageLayout :=
  { m with containers := m.containers.map (·.restyle r) }

namespace Plan

/-- The plan restyled. -/
def restyle (p : Plan) : Plan :=
  { p with messages := p.messages.map (·.restyle r), structs := p.structs.map (·.restyle r) }

open LayoutT

theorem mirrors_layoutContainer (s : Schema) (message : String) (c : Container) :
    Mirrors r (layoutContainer s message c) (layoutContainer (s.restyle r) message (c.restyle r))
      (ContainerLayout.restyle r) := by
  unfold layoutContainer
  dsimp only [Container.restyle]
  rw [wireOrder_restyle, Schema.nesting_restyle]
  refine mirrors_bind (mirrors_ofExcept _) fun ordered => ?_
  refine mirrors_bind (mirrors_layoutList (mirrors_sizeOfStruct r s _) ..) fun _ => ?_
  exact mirrors_pure rfl

theorem mirrors_layoutMessage (s : Schema) (m : Message) :
    Mirrors r (layoutMessage s m) (layoutMessage (s.restyle r) (m.restyle r))
      (MessageLayout.restyle r) :=
  mirrors_bind (mirrors_mapM (mirrors_layoutContainer r s m.name) m.containers) fun _ =>
    mirrors_pure rfl

theorem mirrors_layoutMessages (s : Schema) :
    Mirrors r (layoutMessages s) (layoutMessages (s.restyle r))
      (List.map (MessageLayout.restyle r)) := by
  have hstructs : Mirrors r (s.structs.mapM fun t => layoutStruct s t.name)
      ((s.restyle r).structs.mapM fun t => layoutStruct (s.restyle r) t.name)
      (List.map (StructLayout.restyle r)) := by
    refine mirrors_mapM (fun t => ?_) s.structs
    exact mirrors_layoutStruct r s t.name
  exact mirrors_bind (mirrors_discard hstructs) fun _ =>
    mirrors_mapM (mirrors_layoutMessage r s) s.messages

/-- The finished structs of a restyled session are those of the session, restyled. -/
theorem structs_restyle (s : Schema) (p : LayoutProgress) :
    LayoutSession.structs ⟨s.restyle r, p.restyle r⟩ =
      (LayoutSession.structs ⟨s, p⟩).map (StructLayout.restyle r) := by
  simp only [LayoutSession.structs, Schema.restyle, List.filterMap_map, List.map_filterMap]
  exact List.filterMap_congr fun t _ => p.struct?_restyle r t.name

/-- **Layouts do not see a restyling.** A restyled schema fails with the same error, or its plan is
the plan of the schema, restyled. -/
theorem ofSchema_restyle (s : Schema) : ofSchema (s.restyle r) = (ofSchema s).map (restyle r) := by
  have hrun := (mirrors_layoutMessages r s).run_eq {}
  have hempty : LayoutProgress.restyle r {} = {} := rfl
  rw [hempty] at hrun
  rw [ofSchema_eq, ofSchema_eq, LayoutSession.run_eq, LayoutSession.run_eq, hrun]
  rcases (layoutMessages s).run.run {} with ⟨_ | messages, progress⟩
  · rfl
  · refine congrArg Except.ok ?_
    dsimp only [restyle]
    rw [← structs_restyle]
    rfl

theorem ofExpanded_restyle (e : Expanded) (options : Options) :
    ofExpanded (e.restyle r) options = (ofExpanded e options).map (restyle r) := by
  unfold ofExpanded
  rw [Schema.ofExpanded_restyle]
  exact map_bind_eq_map (ofSchema_restyle r)

end Plan

end WirePlan
