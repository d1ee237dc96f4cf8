import WirePlan.Plan.Basic

/-!
# Steps of a layout session

A step of a session reads and changes what the session has done so far and may fail. `Yields` says
that a step succeeds, with what result and where it leaves the session; the lemmas take a successful
step apart into the successful steps it is made of. `Ends` says of a step, whether it succeeds or
not, how it may end and where it may leave the session; the lemmas put it together from how its
parts may end.
-/

namespace WirePlan.LayoutT

variable {α β : Type} {p p' p'' : LayoutProgress}

/-- The step succeeds with a result and leads from one progress to another. -/
def Yields (step : LayoutM α) (p : LayoutProgress) (a : α) (p' : LayoutProgress) : Prop :=
  step.run.run p = (.ok a, p')

theorem yields_pure {a b : α} : Yields (pure a) p b p' ↔ a = b ∧ p = p' := by
  constructor
  · intro h
    cases h
    exact ⟨rfl, rfl⟩
  · rintro ⟨rfl, rfl⟩
    rfl

theorem yields_throw {e : SchemaError} {a : α} : ¬ Yields (throw e) p a p' := by
  intro h
  cases h

/-- A step runs on from where the one before it has ended. -/
theorem run_bind (x : LayoutM α) (f : α → LayoutM β) (p : LayoutProgress) :
    (x >>= f).run.run p = (ExceptT.bindCont f (x.run.run p).1).run (x.run.run p).2 := rfl

theorem yields_bind {x : LayoutM α} {f : α → LayoutM β} {b : β} :
    Yields (x >>= f) p b p'' ↔ ∃ a p', Yields x p a p' ∧ Yields (f a) p' b p'' := by
  unfold Yields
  rw [run_bind]
  constructor
  · intro h
    rcases hx : x.run.run p with ⟨_ | a, p'⟩
    · rw [hx] at h
      cases h
    · rw [hx] at h
      exact ⟨a, p', rfl, h⟩
  · rintro ⟨a, p', hx, hf⟩
    rw [hx]
    exact hf

theorem yields_map {x : LayoutM α} {f : α → β} {b : β} :
    Yields (f <$> x) p b p' ↔ ∃ a, Yields x p a p' ∧ f a = b := by
  rw [← bind_pure_comp, yields_bind]
  constructor
  · rintro ⟨a, q, hx, hf⟩
    obtain ⟨rfl, rfl⟩ := yields_pure.1 hf
    exact ⟨a, hx, rfl⟩
  · rintro ⟨a, hx, rfl⟩
    exact ⟨a, p', hx, yields_pure.2 ⟨rfl, rfl⟩⟩

theorem yields_get {q : LayoutProgress} : Yields get p q p' ↔ p = q ∧ p = p' := by
  constructor
  · intro h
    cases h
    exact ⟨rfl, rfl⟩
  · rintro ⟨rfl, rfl⟩
    rfl

theorem yields_begin {name : String} {u : Unit} :
    Yields (begin name) p u p' ↔ p' = { p with underWay := name :: p.underWay } := by
  constructor
  · intro h
    cases h
    rfl
  · rintro rfl
    rfl

theorem yields_finish {layout : StructLayout} {u : Unit} :
    Yields (finish layout) p u p' ↔ p' = ⟨layout :: p.structs, p.underWay.tail⟩ := by
  constructor
  · intro h
    cases h
    rfl
  · rintro rfl
    rfl

theorem yields_ofExcept {r : Except SchemaError α} {a : α} :
    Yields (ofExcept r) p a p' ↔ r = .ok a ∧ p = p' := by
  cases r with
  | ok b =>
    rw [ofExcept, yields_pure]
    simp
  | error e => exact ⟨fun h => absurd h yields_throw, fun h => nomatch h.1⟩

/-! ## All ways to end -/

/-- Where the step succeeds its result and the session after it suit, and where it fails the error
and the session after it are expected. -/
structure Ends (step : LayoutM α) (p : LayoutProgress) (suits : α → LayoutProgress → Prop)
    (expected : SchemaError → LayoutProgress → Prop) : Prop where
  yields : ∀ a p', step.Yields p a p' → suits a p'
  fails : ∀ e p', step.run.run p = (.error e, p') → expected e p'

variable {suits : α → LayoutProgress → Prop} {expected : SchemaError → LayoutProgress → Prop}

theorem Ends.mono {step : LayoutM α} {likely : SchemaError → LayoutProgress → Prop}
    (h : step.Ends p suits likely) (hle : ∀ e p', likely e p' → expected e p') :
    step.Ends p suits expected :=
  ⟨h.yields, fun e p' he => hle e p' (h.fails e p' he)⟩

theorem ends_pure {a : α} (h : suits a p) : Ends (pure a) p suits expected where
  yields b p' hb := by
    obtain ⟨rfl, rfl⟩ := yields_pure.1 hb
    exact h
  fails _ _ he := nomatch he

theorem ends_throw {e : SchemaError} (h : expected e p) :
    Ends (throw e : LayoutM α) p suits expected where
  yields _ _ ha := absurd ha yields_throw
  fails e' p' he := by
    cases he
    exact h

theorem ends_bind {x : LayoutM α} {f : α → LayoutM β} {results : β → LayoutProgress → Prop}
    (hx : Ends x p suits expected)
    (hf : ∀ a p', x.Yields p a p' → suits a p' → Ends (f a) p' results expected) :
    Ends (x >>= f) p results expected where
  yields b p'' h := by
    obtain ⟨a, p', ha, hb⟩ := yields_bind.1 h
    exact (hf a p' ha (hx.yields a p' ha)).yields b p'' hb
  fails e p'' h := by
    rw [run_bind] at h
    rcases ha : x.run.run p with ⟨e' | a, p'⟩
    · rw [ha] at h
      cases h
      exact hx.fails e p' ha
    · rw [ha] at h
      exact (hf a p' ha (hx.yields a p' ha)).fails e p'' h

theorem ends_discard {x : LayoutM α} {keeps : LayoutProgress → Prop}
    (hx : Ends x p (fun _ p' => keeps p') expected) :
    Ends (discard x) p (fun _ p' => keeps p') expected := by
  rw [Functor.discard, map_const, Function.comp_apply, ← bind_pure_comp]
  exact ends_bind hx fun _ _ _ ha => ends_pure ha

theorem ends_throw_bind {e : SchemaError} {f : α → LayoutM β} {results : β → LayoutProgress → Prop}
    (h : expected e p) : Ends (throw e >>= f) p results expected := by
  have hthrow : Ends (throw e : LayoutM α) p (fun _ _ => False) expected := ends_throw h
  exact ends_bind hthrow fun _ _ _ hfalse => hfalse.elim

theorem ends_get_bind {f : LayoutProgress → LayoutM α} (h : Ends (f p) p suits expected) :
    Ends (get >>= f) p suits expected :=
  ⟨h.yields, h.fails⟩

theorem ends_begin_bind {name : String} {f : Unit → LayoutM α}
    (h : Ends (f ()) { p with underWay := name :: p.underWay } suits expected) :
    Ends (begin name >>= f) p suits expected :=
  ⟨h.yields, h.fails⟩

theorem ends_finish_bind {layout : StructLayout} {f : Unit → LayoutM α}
    (h : Ends (f ()) ⟨layout :: p.structs, p.underWay.tail⟩ suits expected) :
    Ends (finish layout >>= f) p suits expected :=
  ⟨h.yields, h.fails⟩

theorem ends_ofExcept_bind {r : Except SchemaError α} {f : α → LayoutM β}
    {results : β → LayoutProgress → Prop} (hok : ∀ a, r = .ok a → Ends (f a) p results expected)
    (herror : ∀ e, r = .error e → expected e p) : Ends (ofExcept r >>= f) p results expected := by
  cases r with
  | ok a =>
    rw [ofExcept, pure_bind]
    exact hok a rfl
  | error e => exact ends_throw_bind (herror e rfl)

/-- What every step for an item of a list keeps, all of them together keep. -/
theorem ends_mapM {step : α → LayoutM β} {xs : List α} {keeps : LayoutProgress → Prop}
    (hstep : ∀ x ∈ xs, ∀ p, keeps p → Ends (step x) p (fun _ p' => keeps p') expected)
    (hp : keeps p) : Ends (xs.mapM step) p (fun _ p' => keeps p') expected := by
  induction xs generalizing p with
  | nil => exact ends_pure hp
  | cons x xs ih =>
    rw [List.mapM_cons]
    refine ends_bind (hstep x (.head _) p hp) fun _ q _ hq => ?_
    refine ends_bind (ih (fun y hy => hstep y (.tail _ hy)) hq) fun _ r _ hr => ?_
    exact ends_pure hr

end WirePlan.LayoutT

namespace WirePlan

/-- A step that a session has run with success. -/
theorem LayoutSession.yields_of_run {α : Type} {l l' : LayoutSession} {step : LayoutM α} {a : α}
    (h : l.run step = (.ok a, l')) : step.Yields l.progress a l'.progress := by
  rcases hrun : step.run.run l.progress with ⟨result, progress⟩
  rw [LayoutSession.run_eq, hrun] at h
  cases h
  exact hrun

/-- A step that a session has run in vain ends as is expected. -/
theorem LayoutSession.expected_of_run {α : Type} {l l' : LayoutSession} {step : LayoutM α}
    {suits : α → LayoutProgress → Prop} {expected : SchemaError → LayoutProgress → Prop}
    {error : SchemaError} (hends : step.Ends l.progress suits expected)
    (h : l.run step = (.error error, l')) : expected error l'.progress := by
  rcases hrun : step.run.run l.progress with ⟨result, progress⟩
  rw [LayoutSession.run_eq, hrun] at h
  cases h
  exact hends.fails error progress hrun

end WirePlan
