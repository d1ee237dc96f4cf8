import WirePlan.Plan.Generation
import WirePlan.Proofs.Layout.Stopping
import WirePlan.Proofs.Plan.OfSchema

/-!
# Plans that stop at a sum

Where sums are checked, a plan is returned exactly if it is the plan where they wrap and all its
lists are bounded: the headers and fixed bytes of each are a word together
(`Plan.ofSchemaM_eq_ok_iff`). Whatever else is returned, such as an error of the schema, is returned
where sums wrap, too (`Plan.ofSchema_of_ofSchemaM`).
-/

namespace WirePlan.Plan

open LayoutT

/-- The headers and fixed bytes of every list of the plan are a word together. -/
structure Bounded (plan : Plan) : Prop where
  containers : ∀ m ∈ plan.messages, ∀ c ∈ m.containers, fixedBytes c.fields < UInt64.size
  structs : ∀ layout ∈ plan.structs, layout.Bounded

variable {schema : Schema}

theorem checks_layoutContainer (message : String) (c : Container) :
    Checks schema (layoutContainer schema message c) (layoutContainer schema message c)
      fun layout => fixedBytes layout.fields < UInt64.size := by
  unfold layoutContainer
  refine (checks_ofExcept _).bind fun ordered => ?_
  simp only [bind_pure_comp]
  exact (checks_layoutList (checks_sizeOfStruct _) ..).map fun _ => Iff.rfl

theorem checks_layoutMessage (m : Message) :
    Checks schema (layoutMessage schema m) (layoutMessage schema m)
      fun layout => ∀ c ∈ layout.containers, fixedBytes c.fields < UInt64.size := by
  unfold layoutMessage
  simp only [bind_pure_comp]
  exact (checks_mapM fun c _ => checks_layoutContainer m.name c).map fun _ => Iff.rfl

theorem checks_layoutMessages :
    Checks schema (layoutMessages schema) (layoutMessages schema)
      fun layouts => ∀ m ∈ layouts, ∀ c ∈ m.containers, fixedBytes c.fields < UInt64.size := by
  have hstructs := checks_mapM fun (t : Struct) (_ : t ∈ schema.structs) =>
    @checks_layoutStruct schema t.name
  exact (hstructs.discard fun _ _ _ => trivial).bind fun _ =>
    checks_mapM fun m _ => checks_layoutMessage m

/-- The structs of a session that is sound are bounded exactly if all that it has finished is. -/
theorem bounded_structs_iff {l : LayoutSession} (hsound : l.progress.Sound l.schema) :
    (∀ layout ∈ l.structs, layout.Bounded) ↔ l.progress.Bounded := by
  constructor
  · intro h name layout hlayout
    rw [← LayoutSession.find?_structs hsound] at hlayout
    exact h layout (List.mem_of_find?_eq_some hlayout)
  · intro h layout hlayout
    obtain ⟨s, -, hs⟩ := List.mem_filterMap.1 hlayout
    exact h s.name layout hs

/-- What is planned without stopping is what the session comes to without stopping. -/
theorem ofSchemaM_eq_ok {result : Except SchemaError Plan} :
    (ofSchemaM schema : Stopping _) = .ok result ↔
      ∃ r p, (layoutMessages schema).run.run {} = (.ok (r, p) : Stopping _) ∧
        ofSession schema (r, { schema, progress := p }) = result := by
  unfold ofSchemaM LayoutSession.runM
  simp only [map_eq_ok, bind_eq_ok, pure_eq_ok]
  constructor
  · rintro ⟨_, ⟨⟨r, p⟩, hrun, rfl⟩, rfl⟩
    exact ⟨r, p, hrun, rfl⟩
  · rintro ⟨r, p, hrun, rfl⟩
    exact ⟨_, ⟨(r, p), hrun, rfl⟩, rfl⟩

/-- **What is returned without stopping is returned where sums wrap**, and a plan is bounded. -/
theorem ofSchema_of_ofSchemaM {result : Except SchemaError Plan}
    (h : (ofSchemaM schema : Stopping _) = .ok result) :
    ofSchema schema = result ∧ ∀ plan, result = .ok plan → plan.Bounded := by
  obtain ⟨r, p, hrun, rfl⟩ := ofSchemaM_eq_ok.1 h
  obtain ⟨hwrapped, hbounded⟩ :=
    checks_layoutMessages.traces {} r p LayoutProgress.bounded_empty hrun
  have hsame : ofSchema schema = ofSession schema (r, { schema, progress := p }) := by
    rw [ofSchema_eq, LayoutSession.run_eq, hwrapped]
  refine ⟨hsame, fun plan hplan => ?_⟩
  cases r with
  | error e => cases hplan
  | ok messages =>
    cases hplan
    obtain ⟨hcontainers, hp⟩ := hbounded messages rfl
    have hsound := (lays_layoutMessages hwrapped (LayoutProgress.sound_empty schema)).1
    exact ⟨hcontainers, (bounded_structs_iff (l := { schema, progress := p }) hsound).2 hp⟩

/-- **A plan is returned exactly if it is returned where sums wrap and is bounded.** -/
theorem ofSchemaM_eq_ok_iff {plan : Plan} :
    (ofSchemaM schema : Stopping _) = .ok (.ok plan) ↔
      ofSchema schema = .ok plan ∧ plan.Bounded := by
  constructor
  · intro h
    obtain ⟨hplan, hbounded⟩ := ofSchema_of_ofSchemaM h
    exact ⟨hplan, hbounded plan rfl⟩
  · rintro ⟨hplan, hbounded⟩
    rw [ofSchema_eq] at hplan
    rcases hrun : LayoutSession.run { schema } (layoutMessages schema) with ⟨r, session⟩
    rw [hrun] at hplan
    cases r with
    | error e => cases hplan
    | ok messages =>
      cases hplan
      have hyields := LayoutSession.yields_of_run hrun
      have hschema : session.schema = schema := (congrArg (·.2.schema) hrun).symm
      subst hschema
      have hsound := LayoutProgress.sound_empty session.schema
      have hp := (bounded_structs_iff (lays_layoutMessages hyields hsound).1).1 hbounded.structs
      obtain ⟨-, hrun⟩ := checks_layoutMessages.returns.returns {} messages session.progress hsound
        hyields hbounded.containers hp
      exact ofSchemaM_eq_ok.2 ⟨_, _, hrun, rfl⟩

/-- A source is planned without stopping exactly if its plan is bounded. -/
theorem ofSourceM_eq_ok_iff {source : String} {options : Options} {plan : Plan} :
    (ofSourceM source options : Stopping _) = .ok (.ok plan) ↔
      ofSource source options = .ok plan ∧ plan.Bounded := by
  rw [ofSource_eq]
  unfold ofSourceM
  cases Schema.ofSource source options with
  | ok schema => exact ofSchemaM_eq_ok_iff
  | error e => exact ⟨nofun, nofun⟩

end WirePlan.Plan
