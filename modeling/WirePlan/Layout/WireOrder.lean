import WirePlan.Schema.Basic
import WirePlan.Schema.Error

/-!
# The order of fields on the wire

A field depends on the sibling that counts its elements and on the siblings that its prerequisites
read, and comes after them. Among the fields that wait for nothing the one declared first goes next,
so a list that needs no reordering keeps its order (`wireOrder`).

Fields are told by their index in the declaration order. The state of the ordering is the list of
indices that wait, rising; an index is ready when none of its dependencies waits. When nothing is
ready but something waits, every waiting field depends on one that waits, and following these
dependencies from the first one comes back to a field passed before: that is the cycle reported.
-/

namespace WirePlan

/-- The index of the last field with a name. -/
def lastIndex? : List Field → String → Option Nat
  | [], _ => none
  | f :: rest, name =>
    match lastIndex? rest name with
    | some i => some (i + 1)
    | none => if f.name = name then some 0 else none

namespace WireOrder

/-- The index of the field that counts a field's elements, if there is one to count. -/
def counterIndex (fields : List Field) (place : Place) (f : Field) :
    Except SchemaError (List Nat) :=
  match f.sizeField? with
  | none => .ok []
  | some size =>
    match lastIndex? fields size with
    | some i => .ok [i]
    | none => .error (.missingSizeField f.name (some size) place)

/-- The index of the field that a prerequisite reads. -/
def siblingIndex (fields : List Field) (place : Place) (f : Field) (p : Prerequisite) :
    Except SchemaError Nat :=
  match lastIndex? fields p.sibling with
  | some i => .ok i
  | none => .error (.unknownPrerequisiteField f.name p.field place)

/-- The indices of the fields that a field depends on. -/
def dependencies (fields : List Field) (place : Place) (f : Field) :
    Except SchemaError (List Nat) := do
  let counter ← counterIndex fields place f
  let siblings ← f.prerequisites.mapM (siblingIndex fields place f)
  return counter ++ siblings

/-- For each field, the indices of the fields that it depends on. -/
abbrev Graph := List (List Nat)

/-- The dependencies of the field with an index. -/
def Graph.of (g : Graph) (i : Nat) : List Nat := g.getD i []

/-- No dependency of the field waits. -/
def Graph.ready (g : Graph) (waiting : List Nat) (i : Nat) : Bool :=
  (g.of i).all fun d => d ∉ waiting

/-- The order in which at most so many fields go, and the fields that wait in the end. -/
def Graph.drain (g : Graph) : (steps : Nat) → (waiting : List Nat) → List Nat × List Nat
  | 0, waiting => ([], waiting)
  | steps + 1, waiting =>
    match waiting.find? (g.ready waiting) with
    | none => ([], waiting)
    | some i =>
      let (order, stuck) := g.drain steps (waiting.erase i)
      (i :: order, stuck)

/-- The fields of a cycle, its first one again at the end: from the last field of `path`, the first
dependency that waits is followed until it stands on the path already. -/
def Graph.followCycle (g : Graph) (stuck : List Nat) :
    (steps : Nat) → (path : List Nat) → (current : Nat) → List Nat
  | 0, path, _ => path
  | steps + 1, path, current =>
    match (g.of current).find? (· ∈ stuck) with
    | none => path
    | some next =>
      if next ∈ path then path.dropWhile (· ≠ next) ++ [next]
      else g.followCycle stuck steps (path ++ [next]) next

/-- The cycle among fields that wait, from the first of them on. -/
def Graph.cycle (g : Graph) (stuck : List Nat) : List Nat :=
  match stuck with
  | [] => []
  | first :: _ => g.followCycle stuck stuck.length [first] first

/-- The names of fields told by index. -/
def names (fields : List Field) (indices : List Nat) : List String :=
  indices.filterMap fun i => (fields[i]?).map (·.name)

end WireOrder

/-- The fields of a list in wire order. -/
def wireOrder (fields : List Field) (place : Place) : Except SchemaError (List Field) := do
  let graph : WireOrder.Graph ← fields.mapM (WireOrder.dependencies fields place)
  let (order, stuck) := graph.drain fields.length (List.range fields.length)
  if stuck.isEmpty then return order.filterMap fun i => fields[i]?
  else .error (.cyclicDependency (WireOrder.names fields (graph.cycle stuck)) place)

end WirePlan
