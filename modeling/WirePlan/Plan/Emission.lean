import WirePlan.Plan.Basic
import WirePlan.Plan.Registry

/-!
# Handing a plan over

A backend consumes a finished plan: it is told that the plan begins, then every struct, then every
message, then that the plan is finished (`emit`). It may claim definitions of its own on the way; a
struct or message that is claimed already is passed over. A backend runs in a monad of its own, so
it may keep state and may fail, which ends the emission.
-/

namespace WirePlan

/-- A consumer of plans. The callbacks for structs and messages see what was claimed before and
return what they claim themselves. -/
structure Backend (m : Type → Type) where
  begin : Plan → m Unit
  emitStruct : StructLayout → Registry → m (List Claim)
  emitMessage : MessageLayout → Registry → m (List Claim)
  finish : Plan → m Unit

variable {m : Type → Type} [Monad m]

/-- Emits each item that is not claimed yet, after claiming it. -/
def emitEach {α : Type} (claimOf : α → Claim) (callback : α → Registry → m (List Claim)) :
    Registry → List α → m Registry
  | r, [] => pure r
  | r, a :: rest =>
    if r.contains (claimOf a) then emitEach claimOf callback r rest
    else do
      let r := r.claim (claimOf a)
      let claims ← callback a r
      emitEach claimOf callback (r.claimAll claims) rest

/-- Hands a plan to a backend: structs once each, then messages. The result is all that was claimed.
-/
def emit (backend : Backend m) (plan : Plan) : m Registry := do
  backend.begin plan
  let r ← emitEach (fun s => ⟨.struct, s.name⟩) backend.emitStruct {} plan.structs
  let r ← emitEach (fun s => ⟨.message, s.name⟩) backend.emitMessage r plan.messages
  backend.finish plan
  return r

end WirePlan
