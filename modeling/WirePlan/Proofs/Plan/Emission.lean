import WirePlan.Plan.Emission

/-!
# What an emission does

A backend is a machine with a state of its own (`Machine`): each of its callbacks may change the
state, claim definitions and fail. Seen from outside, an emission walks through the items of a plan
(`Plan.agenda`): the begin, the structs, the messages and the finish. The three stages of `emit` are
one walk (`emit_eq_emitAll`).

Each item gets a turn (`Turn`): it is passed over, or the backend is called with it. Which turns
there can be does not depend on the backend (`Turns`). To tell what a backend was called with, it is
given a second backend around it that notes every call and changes nothing else
(`Backend.recorded`); the run of both is one run with its turns (`Backend.exists_turns`).

The walk is cut at any of its turns (`Turns.cut`): what was claimed by then is what the turns before
it claimed. From this come the parts of the contract (`Contract`): the order of the calls, what is
passed over, that nothing is emitted twice, that an error ends the walk, and what the registry holds
in the end.
-/

namespace WirePlan

namespace Registry

theorem mem_claimAll {r : Registry} {cs : List Claim} {d : Claim} :
    d ∈ (r.claimAll cs).claims ↔ d ∈ cs ∨ d ∈ r.claims := by
  induction cs generalizing r with
  | nil => simp [claimAll]
  | cons c cs ih =>
    have hstep : r.claimAll (c :: cs) = (r.claim c).claimAll cs := rfl
    simp only [hstep, ih, mem_claim, List.mem_cons]
    constructor
    · rintro (h | h | h)
      · exact .inl (.inr h)
      · exact .inl (.inl h)
      · exact .inr h
    · rintro ((h | h) | h)
      · exact .inr (.inl h)
      · exact .inl h
      · exact .inr (.inr h)

theorem nodup_claimAll {r : Registry} (h : r.claims.Nodup) (cs : List Claim) :
    (r.claimAll cs).claims.Nodup := by
  induction cs generalizing r with
  | nil => exact h
  | cons c cs ih => exact ih (nodup_claim h c)

end Registry

/-! ## The walk through a plan -/

/-- What a backend may be called with. -/
inductive Item where
  | begin (plan : Plan)
  | struct (layout : StructLayout)
  | message (layout : MessageLayout)
  | finish (plan : Plan)
  deriving DecidableEq

namespace Item

/-- The definition that an item stands for. -/
def claim? : Item → Option Claim
  | .struct s => some ⟨.struct, s.name⟩
  | .message l => some ⟨.message, l.name⟩
  | .begin _ | .finish _ => none

/-- The registry with the definition of an item noted. -/
def noted (item : Item) (r : Registry) : Registry := item.claim?.elim r r.claim

/-- The definition of an item has been made. -/
def isClaimed (item : Item) (r : Registry) : Bool := item.claim?.any r.contains

variable {item : Item} {r : Registry} {c : Claim}

theorem mem_noted : c ∈ (item.noted r).claims ↔ item.claim? = some c ∨ c ∈ r.claims := by
  unfold noted
  cases item.claim? with
  | none => simp
  | some d => simp [Registry.mem_claim, eq_comm]

theorem nodup_noted (h : r.claims.Nodup) : (item.noted r).claims.Nodup := by
  unfold noted
  cases item.claim? with
  | none => exact h
  | some c => exact r.nodup_claim h c

theorem isClaimed_iff : item.isClaimed r = true ↔ ∃ c, item.claim? = some c ∧ c ∈ r.claims := by
  unfold isClaimed
  cases item.claim? with
  | none => simp
  | some d => simp [Registry.contains]

theorem not_mem_of_isClaimed (hnew : item.isClaimed r = false) (hc : item.claim? = some c) :
    c ∉ r.claims := by
  intro hmem
  rw [isClaimed_iff.2 ⟨c, hc, hmem⟩] at hnew
  cases hnew

end Item

/-- The items of a plan in the order in which they are emitted. -/
def Plan.agenda (plan : Plan) : List Item :=
  .begin plan :: (plan.structs.map .struct ++ plan.messages.map .message ++ [.finish plan])

namespace Backend

variable {m : Type → Type} [Monad m]

/-- Calls a backend with an item. -/
def call (b : Backend m) (r : Registry) : Item → m (List Claim)
  | .begin plan => do
    b.begin plan
    return []
  | .struct s => b.emitStruct s r
  | .message l => b.emitMessage l r
  | .finish plan => do
    b.finish plan
    return []

/-- Emits each item that is not claimed yet, after claiming it. -/
def emitAll (b : Backend m) (r : Registry) : List Item → m Registry
  | [] => pure r
  | item :: rest =>
    if item.isClaimed r then b.emitAll r rest
    else do
      let claims ← b.call (item.noted r) item
      b.emitAll ((item.noted r).claimAll claims) rest

variable (b : Backend m)

/-- The items of one kind are emitted by the callback for it. -/
theorem emitAll_map {α : Type} {wrap : α → Item} {claimOf : α → Claim}
    {callback : α → Registry → m (List Claim)} (hclaim : ∀ a, (wrap a).claim? = some (claimOf a))
    (hcall : ∀ r a, b.call r (wrap a) = callback a r) (xs : List α) (r : Registry) :
    b.emitAll r (xs.map wrap) = emitEach claimOf callback r xs := by
  induction xs generalizing r with
  | nil => rfl
  | cons a xs ih =>
    have hclaimed : (wrap a).isClaimed r = r.contains (claimOf a) := by
      simp [Item.isClaimed, hclaim]
    have hnoted : (wrap a).noted r = r.claim (claimOf a) := by
      simp [Item.noted, hclaim]
    simp only [List.map_cons, emitAll, emitEach, hclaimed, hnoted, hcall, ih]

variable [LawfulMonad m]

theorem emitAll_append (xs ys : List Item) (r : Registry) :
    b.emitAll r (xs ++ ys) = b.emitAll r xs >>= fun r => b.emitAll r ys := by
  induction xs generalizing r with
  | nil => simp [emitAll]
  | cons item xs ih =>
    simp only [List.cons_append, emitAll]
    split
    · exact ih r
    · simp only [bind_assoc, ih]

/-- The stages of an emission are one walk through the plan. -/
theorem emit_eq_emitAll (plan : Plan) : emit b plan = b.emitAll {} plan.agenda := by
  have hstructs (r : Registry) : b.emitAll r (plan.structs.map .struct) =
      emitEach (fun s => ⟨.struct, s.name⟩) b.emitStruct r plan.structs :=
    b.emitAll_map (fun _ => rfl) (fun _ _ => rfl) plan.structs r
  have hmessages (r : Registry) : b.emitAll r (plan.messages.map .message) =
      emitEach (fun l => ⟨.message, l.name⟩) b.emitMessage r plan.messages :=
    b.emitAll_map (fun _ => rfl) (fun _ _ => rfl) plan.messages r
  simp only [Plan.agenda, emitAll, Item.isClaimed, Item.noted, Item.claim?, call, Option.any_none,
    Option.elim_none, Bool.false_eq_true, if_false, bind_assoc, pure_bind, Registry.claimAll,
    List.foldl_nil, emitAll_append, hstructs, hmessages, emit]

end Backend

/-! ## The turns of a walk -/

/-- A call of a backend and what comes of it. -/
structure Call (ε : Type) where
  item : Item
  /-- What the backend is shown of the claims; it is shown none at the begin and at the finish. -/
  seen? : Option Registry
  /-- What the backend claims, or its error. -/
  outcome : Except ε (List Claim)

/-- What the backend claims in a call. -/
def Call.claimed {ε : Type} (call : Call ε) : List Claim := call.outcome.toOption.getD []

/-- An item is passed over, or the backend is called with it. -/
inductive Turn (ε : Type) where
  | passed (item : Item)
  | called (call : Call ε)

namespace Turn

variable {ε : Type}

def item : Turn ε → Item
  | .passed item => item
  | .called call => call.item

def call? : Turn ε → Option (Call ε)
  | .passed _ => none
  | .called call => some call

/-- What is claimed in a turn: the definition of the item and what the backend claims. -/
def claims : Turn ε → List Claim
  | .passed _ => []
  | .called call => call.item.claim?.toList ++ call.claimed

end Turn

theorem Turn.mem_claims_of_ok {ε : Type} {item : Item} {seen? : Option Registry}
    {claims : List Claim} {c : Claim} :
    c ∈ (Turn.called (ε := ε) ⟨item, seen?, .ok claims⟩).claims ↔
      item.claim? = some c ∨ c ∈ claims := by
  simp [Turn.claims, Call.claimed, Except.toOption]

/-- What is noted after a call: what was before, the definition of the item, and what the backend
claims. -/
theorem mem_claimAll_noted {item : Item} {r : Registry} {claims : List Claim} {c : Claim} :
    c ∈ ((item.noted r).claimAll claims).claims ↔
      c ∈ r.claims ∨ item.claim? = some c ∨ c ∈ claims := by
  rw [Registry.mem_claimAll, Item.mem_noted, or_comm, or_assoc, or_left_comm]

/-- The turns that a walk can take, and its result. -/
inductive Turns {ε : Type} : Registry → List Item → List (Turn ε) → Except ε Registry → Prop where
  | done {r : Registry} : Turns r [] [] (.ok r)
  | passed {r : Registry} {item : Item} {rest : List Item} {turns : List (Turn ε)}
      {result : Except ε Registry} (hclaimed : item.isClaimed r = true)
      (hrest : Turns r rest turns result) : Turns r (item :: rest) (.passed item :: turns) result
  | called {r : Registry} {item : Item} {rest : List Item} {turns : List (Turn ε)}
      {result : Except ε Registry} {claims : List Claim} (hnew : item.isClaimed r = false)
      (hrest : Turns ((item.noted r).claimAll claims) rest turns result) :
      Turns r (item :: rest) (.called ⟨item, item.claim?.map r.claim, .ok claims⟩ :: turns) result
  | failed {r : Registry} {item : Item} {rest : List Item} {e : ε}
      (hnew : item.isClaimed r = false) :
      Turns r (item :: rest) [.called ⟨item, item.claim?.map r.claim, .error e⟩] (.error e)

/-! ## Backends that keep a state -/

/-- A computation that has a state and may fail. -/
abbrev Machine (σ ε : Type) : Type → Type := ExceptT ε (StateM σ)

namespace Machine

variable {σ ε α β : Type}

/-- What a computation comes to from a state, and the state that it leaves. -/
def exec (x : Machine σ ε α) (s : σ) : Except ε α × σ := x.run.run s

@[simp] theorem exec_pure (a : α) (s : σ) : exec (ε := ε) (pure a) s = (.ok a, s) := rfl

theorem exec_bind_of_ok {x : Machine σ ε α} {f : α → Machine σ ε β} {s s' : σ} {a : α}
    (h : x.exec s = (.ok a, s')) : (x >>= f).exec s = (f a).exec s' := by
  have hrun : x s = (.ok a, s') := h
  simp [exec, bind, ExceptT.bind, ExceptT.bindCont, ExceptT.mk, ExceptT.run, StateT.bind,
    StateT.run, hrun]

theorem exec_bind_of_error {x : Machine σ ε α} {f : α → Machine σ ε β} {s s' : σ} {e : ε}
    (h : x.exec s = (.error e, s')) : (x >>= f).exec s = (.error e, s') := by
  have hrun : x s = (.error e, s') := h
  simp [exec, bind, ExceptT.bind, ExceptT.bindCont, ExceptT.mk, ExceptT.run, StateT.bind,
    StateT.run, hrun]
  rfl

/-- Runs a call of a backend and notes what it came to. -/
def recording (item : Item) (seen? : Option Registry) (step : Machine σ ε (List Claim)) :
    Machine (σ × List (Call ε)) ε (List Claim) :=
  ExceptT.mk fun (s, log) =>
    let (outcome, s') := step.exec s
    (outcome, s', log ++ [⟨item, seen?, outcome⟩])

theorem exec_recording (item : Item) (seen? : Option Registry) (step : Machine σ ε (List Claim))
    (s : σ) (log : List (Call ε)) :
    (recording item seen? step).exec (s, log) =
      ((step.exec s).1, (step.exec s).2, log ++ [⟨item, seen?, (step.exec s).1⟩]) := rfl

end Machine

namespace Backend

variable {σ ε : Type}

/-- The backend that does what a backend does and notes each of its calls. -/
def recorded (b : Backend (Machine σ ε)) : Backend (Machine (σ × List (Call ε)) ε) where
  begin plan := do
    let _ ← Machine.recording (.begin plan) none (b.call {} (.begin plan))
    return
  emitStruct s r := Machine.recording (.struct s) (some r) (b.emitStruct s r)
  emitMessage l r := Machine.recording (.message l) (some r) (b.emitMessage l r)
  finish plan := do
    let _ ← Machine.recording (.finish plan) none (b.call {} (.finish plan))
    return

/-- Noting a call that claims nothing leaves nothing to claim. -/
theorem recording_silent (item : Item) (step : Machine σ ε Unit) (w : σ × List (Call ε)) :
    (Machine.recording item none (step >>= fun _ => pure []) >>= fun _ => pure []).exec w =
      (Machine.recording item none (step >>= fun _ => pure [])).exec w := by
  obtain ⟨s, log⟩ := w
  have hrecord := Machine.exec_recording item none (step >>= fun _ => pure []) s log
  rcases h : step.exec s with ⟨outcome, s'⟩
  cases outcome with
  | ok u =>
    rw [Machine.exec_bind_of_ok h, Machine.exec_pure] at hrecord
    rw [Machine.exec_bind_of_ok hrecord, hrecord, Machine.exec_pure]
  | error e =>
    rw [Machine.exec_bind_of_error h] at hrecord
    rw [Machine.exec_bind_of_error hrecord, hrecord]

/-- A backend with a note of each call is called as the backend is, and the call is noted. -/
theorem recorded_call (b : Backend (Machine σ ε)) (r : Registry) (item : Item)
    (w : σ × List (Call ε)) : (b.recorded.call (item.noted r) item).exec w =
      (Machine.recording item (item.claim?.map r.claim) (b.call (item.noted r) item)).exec w := by
  cases item with
  | struct s => rfl
  | message l => rfl
  | begin plan =>
    simp only [call, recorded, bind_assoc, pure_bind]
    exact recording_silent (.begin plan) (b.begin plan) w
  | finish plan =>
    simp only [call, recorded, bind_assoc, pure_bind]
    exact recording_silent (.finish plan) (b.finish plan) w

/-- A walk takes turns; the backend with a note of each call takes the same and comes to the same.
-/
theorem exists_turns (b : Backend (Machine σ ε)) (items : List Item) (r : Registry) (s : σ)
    (log : List (Call ε)) :
    ∃ turns, Turns r items turns ((b.emitAll r items).exec s).1 ∧
      (b.recorded.emitAll r items).exec (s, log) = (((b.emitAll r items).exec s).1,
        ((b.emitAll r items).exec s).2, log ++ turns.filterMap Turn.call?) := by
  induction items generalizing r s log with
  | nil => exact ⟨[], .done, by simp [emitAll]⟩
  | cons item rest ih =>
    simp only [emitAll]
    cases hclaimed : item.isClaimed r with
    | true =>
      obtain ⟨turns, hturns, hrun⟩ := ih r s log
      exact ⟨.passed item :: turns, .passed hclaimed hturns, hrun⟩
    | false =>
      have hcall := recorded_call b r item (s, log)
      rw [Machine.exec_recording] at hcall
      rcases h : (b.call (item.noted r) item).exec s with ⟨outcome, s'⟩
      rw [h] at hcall
      cases outcome with
      | ok claims =>
        obtain ⟨turns, hturns, hrun⟩ := ih ((item.noted r).claimAll claims) s'
          (log ++ [⟨item, item.claim?.map r.claim, .ok claims⟩])
        refine ⟨.called ⟨item, item.claim?.map r.claim, .ok claims⟩ :: turns, ?_, ?_⟩
        · simp only [Bool.false_eq_true, if_false, Machine.exec_bind_of_ok h]
          exact .called hclaimed hturns
        · simp only [Bool.false_eq_true, if_false, Machine.exec_bind_of_ok h,
            Machine.exec_bind_of_ok hcall]
          simpa [Turn.call?] using hrun
      | error e =>
        refine ⟨[.called ⟨item, item.claim?.map r.claim, .error e⟩], ?_, ?_⟩
        · simp only [Bool.false_eq_true, if_false, Machine.exec_bind_of_error h]
          exact .failed hclaimed
        · simp [Machine.exec_bind_of_error h, Machine.exec_bind_of_error hcall, Turn.call?]

end Backend

/-! ## What every walk keeps to -/

/-- The definitions that a backend was called with, in the order of the calls. -/
def emitted {ε : Type} (turns : List (Turn ε)) : List Claim :=
  (turns.filterMap Turn.call?).filterMap (·.item.claim?)

theorem mem_emitted_called {ε : Type} {call : Call ε} {turns : List (Turn ε)} {c : Claim} :
    c ∈ emitted (.called call :: turns) ↔ call.item.claim? = some c ∨ c ∈ emitted turns := by
  simp [emitted, Turn.call?]

namespace Turns

variable {ε : Type} {r : Registry} {items : List Item} {turns : List (Turn ε)}
  {result : Except ε Registry}

theorem order (h : Turns r items turns result) : turns.map Turn.item <+: items := by
  induction h with
  | done => exact List.nil_prefix
  | passed _ _ ih | called _ _ ih => exact List.cons_prefix_cons.2 ⟨rfl, ih⟩
  | failed => exact List.cons_prefix_cons.2 ⟨rfl, List.nil_prefix⟩

/-- A walk that succeeds comes to the end of the items, and its registry holds what was claimed
before, the definitions of all items, and what the backend claimed. -/
theorem finished {r' : Registry} (h : Turns r items turns (.ok r')) :
    turns.map Turn.item = items ∧ (r.claims.Nodup → r'.claims.Nodup) ∧
      ∀ c, c ∈ r'.claims ↔ c ∈ r.claims ∨ c ∈ items.filterMap Item.claim? ∨
        ∃ call ∈ turns.filterMap Turn.call?, c ∈ call.claimed := by
  generalize hresult : (Except.ok r' : Except ε Registry) = result at h
  induction h with
  | done =>
    cases hresult
    simp
  | @passed r item rest turns result hclaimed hrest ih =>
    obtain ⟨hitems, hnodup, hclaims⟩ := ih hresult
    refine ⟨by rw [List.map_cons, hitems]; rfl, hnodup, fun c => ?_⟩
    -- the definition of the item adds nothing
    obtain ⟨own, hown, hmem⟩ := Item.isClaimed_iff.1 hclaimed
    rw [hclaims, List.filterMap_cons_some hown, List.filterMap_cons_none rfl, List.mem_cons]
    constructor
    · rintro (h | h | h)
      · exact .inl h
      · exact .inr (.inl (.inr h))
      · exact .inr (.inr h)
    · rintro (h | (rfl | h) | h)
      · exact .inl h
      · exact .inl hmem
      · exact .inr (.inl h)
      · exact .inr (.inr h)
  | @called r item rest turns result claims hnew hrest ih =>
    obtain ⟨hitems, hnodup, hclaims⟩ := ih hresult
    refine ⟨by rw [List.map_cons, hitems]; rfl,
      fun h => hnodup (Registry.nodup_claimAll (Item.nodup_noted h) claims), fun c => ?_⟩
    have hitem : c ∈ (item :: rest).filterMap Item.claim? ↔
        item.claim? = some c ∨ c ∈ rest.filterMap Item.claim? := by
      simp
    rw [hclaims, mem_claimAll_noted, hitem]
    simp [Turn.call?, Call.claimed, Except.toOption, or_assoc, or_left_comm]
  | failed => cases hresult

/-- A walk fails with the error of its last call. -/
theorem failed_last {e : ε} (h : Turns r items turns (.error e)) :
    ∃ done call, turns = done ++ [.called call] ∧ call.outcome = .error e := by
  generalize hresult : (Except.error e : Except ε Registry) = result at h
  induction h with
  | done => cases hresult
  | @passed _ item _ _ _ _ _ ih =>
    obtain ⟨done, call, rfl, hcall⟩ := ih hresult
    exact ⟨.passed item :: done, call, rfl, hcall⟩
  | @called r item _ _ _ claims _ _ ih =>
    obtain ⟨done, call, rfl, hcall⟩ := ih hresult
    exact ⟨.called ⟨item, item.claim?.map r.claim, .ok claims⟩ :: done, call, rfl, hcall⟩
  | failed =>
    cases hresult
    exact ⟨[], _, rfl, rfl⟩

/-- From any of its turns on, a walk is a walk from what was claimed in the turns before. -/
theorem cut {done rest : List (Turn ε)} {turn : Turn ε}
    (h : Turns r items (done ++ turn :: rest) result) :
    ∃ r' items', Turns r' items' (turn :: rest) result ∧
      ∀ c, c ∈ r'.claims ↔ c ∈ r.claims ∨ c ∈ done.flatMap Turn.claims := by
  induction done generalizing r items with
  | nil => exact ⟨r, items, h, by simp⟩
  | cons first done ih =>
    generalize hturns : first :: done ++ turn :: rest = turns at h
    cases h with
    | done => cases hturns
    | passed hclaimed hrest =>
      obtain ⟨rfl, rfl⟩ := List.cons.inj hturns
      obtain ⟨r', items', hcut, hclaims⟩ := ih hrest
      exact ⟨r', items', hcut, by simpa [Turn.claims] using hclaims⟩
    | called hnew hrest =>
      obtain ⟨rfl, rfl⟩ := List.cons.inj hturns
      obtain ⟨r', items', hcut, hclaims⟩ := ih hrest
      refine ⟨r', items', hcut, fun c => ?_⟩
      rw [hclaims, mem_claimAll_noted, List.flatMap_cons, List.mem_append, Turn.mem_claims_of_ok,
        or_assoc]
    | failed => simp at hturns

/-- An item is passed over exactly if its definition was claimed in the turns before. -/
theorem passed_iff {done rest : List (Turn ε)} {turn : Turn ε}
    (h : Turns r items (done ++ turn :: rest) result) :
    turn.call? = none ↔ ∃ c, turn.item.claim? = some c ∧
      (c ∈ r.claims ∨ c ∈ done.flatMap Turn.claims) := by
  obtain ⟨r', items', hcut, hclaims⟩ := cut h
  have hiff : turn.call? = none ↔ turn.item.isClaimed r' = true := by
    cases hcut with
    | passed hclaimed _ => simpa [Turn.call?, Turn.item] using hclaimed
    | called hnew _ | failed hnew => simpa [Turn.call?, Turn.item] using hnew
  simp only [hiff, Item.isClaimed_iff, hclaims]

/-- A backend is shown the definition that it is called for and what was claimed in the turns
before. -/
theorem seen {done rest : List (Turn ε)} {call : Call ε}
    (h : Turns r items (done ++ .called call :: rest) result) :
    call.seen?.isSome = call.item.claim?.isSome ∧ ∀ known, call.seen? = some known →
      ∀ c, c ∈ known.claims ↔ call.item.claim? = some c ∨
        c ∈ r.claims ∨ c ∈ done.flatMap Turn.claims := by
  obtain ⟨r', items', hcut, hclaims⟩ := cut h
  have hseen : call.seen? = call.item.claim?.map r'.claim := by
    cases hcut with
    | called | failed => rfl
  refine ⟨by simp [hseen], fun known hknown c => ?_⟩
  rw [hseen, Option.map_eq_some_iff] at hknown
  obtain ⟨own, hown, rfl⟩ := hknown
  rw [Registry.mem_claim, hclaims, hown, Option.some.injEq, eq_comm]

/-- The first error ends a walk, which fails with it. -/
theorem stops {done rest : List (Turn ε)} {call : Call ε} {e : ε}
    (h : Turns r items (done ++ .called call :: rest) result) (herror : call.outcome = .error e) :
    rest = [] ∧ result = .error e := by
  obtain ⟨r', items', hcut, -⟩ := cut h
  cases hcut with
  | called => cases herror
  | failed =>
    cases herror
    exact ⟨rfl, rfl⟩

/-- What is emitted was not claimed before. -/
theorem not_mem_of_emitted (h : Turns r items turns result) {c : Claim} (hc : c ∈ emitted turns) :
    c ∉ r.claims := by
  induction h with
  | done => cases hc
  | passed _ _ ih => exact ih hc
  | called hnew _ ih =>
    rcases mem_emitted_called.1 hc with hown | hlater
    · exact Item.not_mem_of_isClaimed hnew hown
    · exact fun hmem => ih hlater (mem_claimAll_noted.2 (.inl hmem))
  | failed hnew =>
    rcases mem_emitted_called.1 hc with hown | hlater
    · exact Item.not_mem_of_isClaimed hnew hown
    · cases hlater

/-- Nothing is emitted twice. -/
theorem once (h : Turns r items turns result) : (emitted turns).Nodup := by
  induction h with
  | done => exact .nil
  | passed _ _ ih => exact ih
  | @called r item _ _ _ claims _ hrest ih =>
    -- a definition that is emitted is noted before the rest of the walk
    cases hown : item.claim? with
    | none => simpa [emitted, Turn.call?, hown] using ih
    | some own =>
      have hfresh := fun hlater => hrest.not_mem_of_emitted (c := own) hlater
        (mem_claimAll_noted.2 (.inr (.inl hown)))
      simpa [emitted, Turn.call?, hown] using List.nodup_cons.2 ⟨hfresh, ih⟩
  | @failed r item _ _ _ =>
    cases hown : item.claim? with
    | none => simp [emitted, Turn.call?, hown]
    | some own => simp [emitted, Turn.call?, hown]

end Turns

/-! ## The contract -/

/-- What an emission is bound to: what becomes of the items of a plan, and what comes of it. -/
structure Contract {ε : Type} (plan : Plan) (turns : List (Turn ε)) (result : Except ε Registry) :
    Prop where
  /-- The items have their turns in the order of the plan, none is left out. -/
  order : turns.map Turn.item <+: plan.agenda
  /-- The backend is called with the begin before anything else. -/
  begins : ∃ call rest, turns = .called call :: rest ∧ call.item = .begin plan
  /-- An item is passed over exactly if its definition was claimed by then, with an item before or
  by the backend. -/
  passed : ∀ {done turn rest}, turns = done ++ turn :: rest →
    (turn.call? = none ↔ ∃ c, turn.item.claim? = some c ∧ c ∈ done.flatMap Turn.claims)
  /-- With each struct and message the backend is shown what was claimed by then, the struct or
  message among it. -/
  seen : ∀ {done call rest}, turns = done ++ .called call :: rest →
    call.seen?.isSome = call.item.claim?.isSome ∧ ∀ known, call.seen? = some known →
      ∀ c, c ∈ known.claims ↔ call.item.claim? = some c ∨ c ∈ done.flatMap Turn.claims
  /-- No struct and no message is emitted twice. -/
  once : (emitted turns).Nodup
  /-- No struct is emitted after a message. -/
  structsFirst : (emitted turns).Pairwise fun c d => c.kind = .message → d.kind ≠ .struct
  /-- The first error ends the emission and is its result. -/
  stops : ∀ {done call rest e}, turns = done ++ .called call :: rest → call.outcome = .error e →
    rest = [] ∧ result = .error e
  /-- An emission fails with an error of the backend only. -/
  failed : ∀ {e}, result = .error e →
    ∃ done call, turns = done ++ [.called call] ∧ call.outcome = .error e
  /-- An emission that succeeds has come to every item, and its registry holds every struct and
  every message of the plan, what the backend claimed, and nothing else. -/
  finished : ∀ {r}, result = .ok r → turns.map Turn.item = plan.agenda ∧ r.claims.Nodup ∧
    ∀ c, c ∈ r.claims ↔ (∃ s ∈ plan.structs, c = ⟨.struct, s.name⟩) ∨
      (∃ l ∈ plan.messages, c = ⟨.message, l.name⟩) ∨
      ∃ call ∈ turns.filterMap Turn.call?, c ∈ call.claimed

/-- The definitions that a plan is made of: its structs, then its messages. -/
theorem agenda_claims (plan : Plan) : plan.agenda.filterMap Item.claim? =
    plan.structs.map (fun s => ⟨.struct, s.name⟩) ++
      plan.messages.map (fun l => ⟨.message, l.name⟩) := by
  have hstruct : Item.claim? ∘ Item.struct = some ∘ fun s => ⟨.struct, s.name⟩ := rfl
  have hmessage : Item.claim? ∘ Item.message = some ∘ fun l => ⟨.message, l.name⟩ := rfl
  have hbegin (items : List Item) :
      (Item.begin plan :: items).filterMap Item.claim? = items.filterMap Item.claim? :=
    List.filterMap_cons_none rfl
  rw [Plan.agenda, hbegin]
  simp [Item.claim?, List.filterMap_append, List.filterMap_map, hstruct, hmessage]

/-- What is emitted stands in the order of the items. -/
theorem emitted_sublist {ε : Type} (turns : List (Turn ε)) :
    (emitted turns).Sublist ((turns.map Turn.item).filterMap Item.claim?) := by
  have hcalls : ((turns.filterMap Turn.call?).map Call.item).Sublist (turns.map Turn.item) := by
    induction turns with
    | nil => exact .slnil
    | cons turn turns ih =>
      cases turn with
      | passed item => exact .cons _ ih
      | called call => exact .cons_cons _ ih
  simpa [emitted, List.filterMap_map, Function.comp_def] using hcalls.filterMap Item.claim?

/-- Nothing but structs is emitted before the first message. -/
theorem pairwise_emitted {ε : Type} {plan : Plan} {turns : List (Turn ε)}
    (h : turns.map Turn.item <+: plan.agenda) :
    (emitted turns).Pairwise fun c d => c.kind = .message → d.kind ≠ .struct := by
  refine .sublist ((emitted_sublist turns).trans (h.sublist.filterMap _)) ?_
  rw [agenda_claims, List.pairwise_append, List.pairwise_map, List.pairwise_map]
  refine ⟨List.pairwise_of_forall fun s t hkind => ?_, List.pairwise_of_forall fun l k _ => ?_, ?_⟩
  · cases hkind
  · exact nofun
  · intro c hc d _ hkind
    obtain ⟨s, -, rfl⟩ := List.mem_map.1 hc
    cases hkind

/-- The turns of a walk through a plan keep to the contract. -/
theorem Turns.contract {ε : Type} {plan : Plan} {turns : List (Turn ε)}
    {result : Except ε Registry} (h : Turns {} plan.agenda turns result) :
    Contract plan turns result where
  order := h.order
  begins := by
    generalize hagenda : plan.agenda = agenda at h
    cases h with
    | done => cases hagenda
    | passed hclaimed =>
      cases hagenda
      cases hclaimed
    | called | failed =>
      cases hagenda
      exact ⟨_, _, rfl, rfl⟩
  passed := by
    rintro done turn rest rfl
    simpa using h.passed_iff
  seen := by
    rintro done call rest rfl
    simpa using h.seen
  once := h.once
  structsFirst := pairwise_emitted h.order
  stops := by
    rintro done call rest e rfl herror
    exact h.stops herror
  failed := by
    rintro e rfl
    exact h.failed_last
  finished := by
    rintro r rfl
    obtain ⟨hitems, hnodup, hclaims⟩ := h.finished
    refine ⟨hitems, hnodup .nil, fun c => ?_⟩
    rw [hclaims, agenda_claims]
    simp [or_assoc, eq_comm]

/-- Every emission keeps to the contract. The calls of the backend are those that a note of them
shows, and noting them changes nothing. -/
theorem Backend.emit_contract {σ ε : Type} (b : Backend (Machine σ ε)) (plan : Plan) (s : σ) :
    ∃ turns, Contract plan turns ((emit b plan).exec s).1 ∧
      (emit b.recorded plan).exec (s, []) = (((emit b plan).exec s).1, ((emit b plan).exec s).2,
        turns.filterMap Turn.call?) := by
  obtain ⟨turns, hturns, hrun⟩ := b.exists_turns plan.agenda {} s []
  rw [emit_eq_emitAll, emit_eq_emitAll]
  exact ⟨turns, hturns.contract, by simpa using hrun⟩

end WirePlan
