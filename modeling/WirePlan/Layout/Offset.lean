import WirePlan.Number.Overflow

/-!
# Offsets

The place of a field is a constant plus terms that are known only once the fields before it are
decoded: the length of a string, the elements of an array, the bytes of another field of variable
size. The constant counts gated fields as if they were there; where one is absent its terms count
nothing and its fixed bytes are taken back by a correction.

Byte counts are 64-bit words. An offset is evaluated over signed 128-bit integers and is known only
if the result is a 64-bit word again (`Offset.evaluateM`).
-/

namespace WirePlan

/-- A part of an offset that is not constant. -/
inductive Offset.Term where
  /-- The bytes of a string behind its length. -/
  | stringBytes (field : String)
  /-- The bytes of an array: so many elements as the count field says. -/
  | elements (field : String) (elementSize : Nat) (countField : String)
  /-- The bytes of a field of variable size. -/
  | bytesOf (field : String)
  /-- Taken back when the gated field is absent. -/
  | absence (field : String) (bytes : Nat)
  deriving DecidableEq, Repr

/-- A constant and terms. -/
structure Offset where
  constant : Nat := 0
  terms : List Offset.Term := []
  deriving DecidableEq, Repr

/-- What is known of the fields that are decoded. -/
structure Known where
  isPresent : String → Bool
  count? : String → Option Nat
  stringLength? : String → Option Nat
  consumed? : String → Option Nat

namespace Offset.Term

/-- The field whose bytes the term stands for. -/
def owner : Term → String
  | stringBytes f | elements f _ _ | bytesOf f | absence f _ => f

/-- The fields that the term looks up. -/
def references : Term → List String
  | elements f _ c => [f, c]
  | t => [t.owner]

/-- The text of the term. -/
def text : Term → String
  | stringBytes f => "len(" ++ f ++ ")"
  | elements _ size c => toString size ++ " * " ++ c
  | bytesOf f => "size(" ++ f ++ ")"
  | absence f bytes => "(" ++ toString bytes ++ " if " ++ f ++ " absent)"

/-- What stands before the term in a sum. -/
def sign : Term → String
  | absence .. => " - "
  | _ => " + "

/-- The bytes that the term adds; `none` when something it needs is not known, or when a product
exceeds a signed 128-bit integer. -/
def value? (known : Known) : Term → Option Int
  | absence f bytes => some (if known.isPresent f then 0 else -(bytes : Int))
  | stringBytes f =>
    if known.isPresent f then (known.stringLength? f).map Int.ofNat else some 0
  | elements f size c =>
    if known.isPresent f then
      match known.count? c with
      | some n => if size * n < size128 / 2 then some (size * n : Nat) else none
      | none => none
    else some 0
  | bytesOf f => if known.isPresent f then (known.consumed? f).map Int.ofNat else some 0

end Offset.Term

namespace Offset

/-- The offset has no terms. -/
def isConstant (o : Offset) : Bool := o.terms.isEmpty

section Build

variable {m : Type → Type} [Monad m] [Arithmetic m]

/-- The sum of a total and terms over signed 128-bit integers. -/
def sumFromM (known : Known) : Int → List Term → m (Option Int)
  | total, [] => return some total
  | total, t :: rest =>
    match t.value? known with
    | some v => do sumFromM known (← addInt128 total v) rest
    | none => return none

/-- The number, if it is a 64-bit word. -/
def word? (total : Int) : Option Nat :=
  if 0 ≤ total ∧ total < UInt64.size then some total.toNat else none

/-- The offset as a number, if all it needs is known and it is a 64-bit word. -/
def evaluateM (o : Offset) (known : Known) : m (Option Nat) := do
  return (← sumFromM known o.constant o.terms).bind word?

/-- The offset a number of bytes further on. -/
def advanceM (o : Offset) (bytes : Nat) : m Offset := do
  return { o with constant := ← addWord o.constant bytes }

end Build

/-- The offset as a number, where sums wrap. -/
def evaluate? (o : Offset) (known : Known) : Option Nat := Id.run (o.evaluateM known)

/-- The text of the offset. -/
def text (o : Offset) : String :=
  o.terms.foldl (fun s t => s ++ t.sign ++ t.text) (toString o.constant)

/-- The offset with a further term, if there is one. -/
def plus (o : Offset) (term? : Option Term) : Offset :=
  { o with terms := o.terms ++ term?.toList }

end Offset

end WirePlan
