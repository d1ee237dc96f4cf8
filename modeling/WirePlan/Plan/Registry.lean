/-!
# What has been emitted

A registry notes the definitions that were produced in one run, each under its kind and name, so
that none is produced twice (`Registry.mem_claim`).
-/

namespace WirePlan

/-- The kinds of definitions. -/
inductive ClaimKind where
  | struct
  | message
  /-- What is produced once for a template. -/
  | fragment
  deriving DecidableEq, Repr

/-- A definition, told by kind and name. -/
structure Claim where
  kind : ClaimKind
  name : String
  deriving DecidableEq, Repr

/-- The definitions produced so far, the last one first. -/
structure Registry where
  claims : List Claim := []
  deriving DecidableEq, Repr

namespace Registry

/-- The definition was produced. -/
def contains (r : Registry) (c : Claim) : Bool := c ∈ r.claims

/-- The registry with a definition noted. -/
def claim (r : Registry) (c : Claim) : Registry := if r.contains c then r else ⟨c :: r.claims⟩

/-- The registry with several definitions noted, one after the other. -/
def claimAll (r : Registry) (cs : List Claim) : Registry := cs.foldl claim r

/-- The number of definitions. -/
def size (r : Registry) : Nat := r.claims.length

/-- Nothing was produced. -/
def isEmpty (r : Registry) : Bool := r.claims.isEmpty

theorem mem_claim {r : Registry} {c d : Claim} :
    d ∈ (r.claim c).claims ↔ d = c ∨ d ∈ r.claims := by
  unfold claim contains
  split
  · next h =>
    simp only [decide_eq_true_eq] at h
    exact ⟨.inr, fun hd => hd.elim (fun e => e ▸ h) id⟩
  · simp

/-- No definition is noted twice. -/
theorem nodup_claim {r : Registry} (h : r.claims.Nodup) (c : Claim) : (r.claim c).claims.Nodup := by
  unfold claim contains
  split
  · exact h
  · next hc => exact List.nodup_cons.2 ⟨by simpa using hc, h⟩

end Registry

end WirePlan
