import WirePlan.Proofs.Plan.Restyling
import WirePlan.Proofs.Schema.Expansion

/-!
# A template means its copies

To leave out the notes of templates is a restyling (`Restyling.withoutOrigins`), which neither the
checks nor the layouts see. Copies in place of templates are expanded to the same but for the notes,
so declarations and their written-out form have the same plans but for the notes, and one has none
exactly if the other has none (`Declarations.plans_of_inlined`).
-/

namespace WirePlan

/-- The layout without the note of the field's template. -/
def PlacedField.withoutOrigin (f : PlacedField) : PlacedField := { f with origin? := none }

/-- The layout without the notes of templates. -/
def StructLayout.withoutOrigins (s : StructLayout) : StructLayout :=
  { s with members := s.members.map (·.withoutOrigin) }

/-- The layout without the notes of templates. -/
def ContainerLayout.withoutOrigins (c : ContainerLayout) : ContainerLayout :=
  { c with fields := c.fields.map (·.withoutOrigin) }

/-- The layout without the notes of templates. -/
def MessageLayout.withoutOrigins (m : MessageLayout) : MessageLayout :=
  { m with containers := m.containers.map (·.withoutOrigins) }

/-- The plan without the notes of templates. -/
def Plan.withoutOrigins (p : Plan) : Plan :=
  { p with messages := p.messages.map (·.withoutOrigins)
           structs := p.structs.map (·.withoutOrigins) }

/-- The notes of templates are left out. -/
def Restyling.withoutOrigins : Restyling where
  tag := id
  format := id
  origin? _ := none
  lookup_tag t := by cases h : Format.lookup t <;> simp [h, Except.map]
  unboxed_format _ := rfl

theorem Plan.ofExpanded_withoutOrigins (e : Expanded) (options : Options) :
    ofExpanded e.withoutOrigins options = (ofExpanded e options).map withoutOrigins :=
  ofExpanded_restyle .withoutOrigins e options

/-- **A template means the copies written in its place.** Declarations can be expanded exactly if
the names of templates stand once within each kind, the format of every field template is known, and
every template that is used resolves, where a use that gives prerequisites, be it none, hides those
of its template. The declarations with copies in place of templates use no template; they have a
plan exactly if the declarations have one, and the two differ in the notes of templates only. -/
theorem Declarations.plans_of_inlined (d : Declarations) :
    ((∃ e, d.expand = .ok e) ↔ d.Expandable) ∧
      ∀ e, d.expand = .ok e → d.inlined.StandsAlone ∧ ∃ e', d.inlined.expand = .ok e' ∧
        ∀ options,
          ((∃ plan, Plan.ofExpanded e options = .ok plan) ↔
            ∃ plan', Plan.ofExpanded e' options = .ok plan') ∧
          ∀ plan plan', Plan.ofExpanded e options = .ok plan →
            Plan.ofExpanded e' options = .ok plan' →
              plan'.withoutOrigins = plan.withoutOrigins := by
  refine ⟨d.exists_expand_iff, fun e he => ?_⟩
  obtain ⟨e', he', hsame⟩ := Declarations.expand_inlined he
  refine ⟨(d.exists_expand_iff.1 ⟨e, he⟩).standsAlone, e', he', fun options => ?_⟩
  have hplans : (Plan.ofExpanded e' options).map Plan.withoutOrigins =
      (Plan.ofExpanded e options).map Plan.withoutOrigins := by
    rw [← Plan.ofExpanded_withoutOrigins, hsame, Plan.ofExpanded_withoutOrigins]
  cases hplan : Plan.ofExpanded e options with
  | error error =>
    cases hplan' : Plan.ofExpanded e' options with
    | error error' => simp
    | ok plan' =>
      rw [hplan, hplan'] at hplans
      cases hplans
  | ok plan =>
    cases hplan' : Plan.ofExpanded e' options with
    | error error' =>
      rw [hplan, hplan'] at hplans
      cases hplans
    | ok plan' =>
      rw [hplan, hplan'] at hplans
      simpa using Except.ok.inj hplans

/-- A template that reads a sibling and a prerequisite that is nowhere, used twice: both uses hide
its prerequisites, one by a template of its own and one by none at all. -/
def gaugeDeclarations : Declarations where
  names := { service? := some "S" }
  messages := [⟨"M", none, 1, [(.request, [
    .inline { name := "on", format := "guint8" },
    .shared "gauge" (some [.shared "is-on"])]), (.response, [.shared "gauge" (some [])])]⟩]
  fragments := [⟨"gauge", { name := "level", format := "guint16", prerequisites :=
    [.inline ⟨"off", .eq, .int 0⟩, .shared "nowhere"] }⟩]
  prerequisites := [⟨"is-on", ⟨"on", .eq, .int 1⟩⟩]

/-- The field of the template stands in both containers, gated in one of them only. -/
def gaugePlan (origin? : Option String) : Plan where
  service := "S"
  variant := .fixed
  messages := [⟨"M", "S", 1, [
    ⟨.request, [
      { name := "on", format := .int .u8, header := 0, offset := {}, size := .fixed 1 },
      { name := "level", format := .int .u16, prerequisites := [⟨"on", .eq, .int 1⟩], origin?
        header := 0, offset := { constant := 1 }, size := .fixed 2 }],
      ⟨3, [.absence "level" 2]⟩⟩,
    ⟨.response, [
      { name := "level", format := .int .u16, origin?
        header := 0, offset := {}, size := .fixed 2 }], { constant := 2 }⟩]⟩]
  structs := []

/-- The plan with the template and that with the copies differ in its note. -/
theorem plans_of_inlined_gauge : ∃ e e', gaugeDeclarations.expand = .ok e ∧
    gaugeDeclarations.inlined.expand = .ok e' ∧ gaugeDeclarations.inlined.StandsAlone ∧
      Plan.ofExpanded e {} = .ok (gaugePlan (some "gauge")) ∧
        Plan.ofExpanded e' {} = .ok (gaugePlan none) ∧
          (gaugePlan none).withoutOrigins = (gaugePlan (some "gauge")).withoutOrigins := by
  obtain ⟨e, he⟩ : ∃ e, gaugeDeclarations.expand = .ok e := ⟨_, rfl⟩
  obtain ⟨hstands, e', he', hplans⟩ := gaugeDeclarations.plans_of_inlined.2 e he
  have hplan : Plan.ofExpanded e {} = .ok (gaugePlan (some "gauge")) := by
    cases he
    exact toOption_eq_some.1 (by decide +kernel)
  have hplan' : Plan.ofExpanded e' {} = .ok (gaugePlan none) := by
    cases he'
    exact toOption_eq_some.1 (by decide +kernel)
  exact ⟨e, e', he, he', hstands, hplan, hplan', (hplans {}).2 _ _ hplan hplan'⟩

end WirePlan
