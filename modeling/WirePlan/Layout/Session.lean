import WirePlan.Layout.Basic
import WirePlan.Layout.WireOrder

/-!
# Layout sessions

The size of a field may need the layout of a struct, whose members may need others. A session lays
each struct out once and keeps it; the structs whose layout is under way are noted, and one that is
needed again before it is finished embeds itself (`sizeOfStruct`). A step that fails leaves the
structs that were under way noted, so that later steps of the same session refuse them too. A step
that stops at a sum leaves nothing behind.

The fields of a list are placed one after the other (`layoutFrom`), each with the names of the
fields before it, as a field that counts elements must come first.
-/

namespace WirePlan

/-- What a session has done so far. -/
structure LayoutProgress where
  /-- The finished structs, the last one first. -/
  structs : List StructLayout := []
  /-- The names of the structs under way, innermost first. -/
  underWay : List String := []
  deriving DecidableEq, Repr

/-- The finished struct with a name. -/
def LayoutProgress.struct? (p : LayoutProgress) (name : String) : Option StructLayout :=
  p.structs.find? (·.name = name)

/-- A step of a session in a build. What was done before a failure stays done. -/
abbrev LayoutT (m : Type → Type) := ExceptT SchemaError (StateT LayoutProgress m)

/-- A step of a session where sums wrap. -/
abbrev LayoutM := LayoutT Id

/-- How the size of the struct with a name is found for a field with another. -/
abbrev StructSizes (m : Type → Type) := (structType user : String) → LayoutT m WireSize

section Build

variable {m : Type → Type} [Monad m]

namespace LayoutT

/-- A struct is under way. -/
def begin (name : String) : LayoutT m Unit :=
  modify fun p => { p with underWay := name :: p.underWay }

/-- The innermost struct under way is finished. -/
def finish (layout : StructLayout) : LayoutT m Unit :=
  modify fun p => ⟨layout :: p.structs, p.underWay.tail⟩

/-- A result that needs nothing of the session. -/
def ofExcept {α : Type} : Except SchemaError α → LayoutT m α
  | .ok a => pure a
  | .error e => throw e

/-- A result made of sums, which needs nothing of the session. -/
def ofSums {α : Type} (x : m α) : LayoutT m α := liftM x

end LayoutT

/-- The field that counts elements is placed before them. -/
def requirePlaced (f : Field) (sizeField : String) (placed : List String) (place : Place) :
    LayoutT m Unit :=
  if sizeField ∈ placed then pure () else throw (.unresolvedSizeField f.name sizeField place)

/-- The size of a field; `placed` holds the names of the fields before. -/
def fieldSize (sizes : StructSizes m) (placed : List String) (place : Place) (f : Field) :
    LayoutT m WireSize :=
  match f.format, f.sizeField?, f.structType? with
  | .string, _, _ => return .lengthPrefixed f.lengthFormat.size
  | .array e, some count, none => do
    requirePlaced f count placed place
    return .repeated count (match e.size? with
      | some n => .fixed n
      | none => .lengthPrefixed f.lengthFormat.size)
  | .struct, none, some t | .refStruct, none, some t => sizes t f.name
  | .structArray, some count, some t => do
    requirePlaced f count placed place
    return .repeated count (← sizes t f.name)
  | .refStructArray, some count, some t => do
    requirePlaced f count placed place
    discard (sizes t f.name)
    return .repeated count (.fixed Format.slotSize)
  | format, count?, type? =>
    if count? = none ∧ type? = none ∧ 0 < format.fixedSize then return .fixed format.fixedSize
    else if format.isArray then throw (.missingSizeField f.name count? place)
    else throw (.missingStructType f.name type? place)

variable [Arithmetic m]

/-- The layouts of fields in wire order from an offset on, and the place past the last one; `placed`
holds the names of the fields before. -/
def layoutFrom (sizes : StructSizes m) (header : Nat) (place : Place) :
    (placed : List String) → Offset → List Field → LayoutT m (List PlacedField × Offset)
  | _, o, [] => return ([], o)
  | placed, o, f :: rest => do
    let offset ← LayoutT.ofSums (o.advanceM header)
    let size ← fieldSize sizes placed place f
    let past ← LayoutT.ofSums (offset.pastM header f size)
    let (layouts, endOffset) ← layoutFrom sizes header place (f.name :: placed) past rest
    return ({ f with header, offset, size } :: layouts, endOffset)

/-- The layouts of fields in wire order, and the place past the last one. -/
def layoutList (sizes : StructSizes m) (ordered : List Field) (header : Nat) (place : Place) :
    LayoutT m (List PlacedField × Offset) :=
  layoutFrom sizes header place [] {} ordered

/-- The size of a struct with the given members. -/
def WireSize.ofStruct (name : String) (endOffset : Offset) : WireSize :=
  if endOffset.isConstant then .fixed endOffset.constant else .composite name

/-- The size of the struct with a name, which is laid out if it is not yet. Structs nest no deeper
than `depth`; as those under way are all different, the number of declared structs is enough. -/
def sizeOfStruct (schema : Schema) : (depth : Nat) → StructSizes m
  | depth, name, user => do
    let progress ← get
    match progress.struct? name with
    | some layout => return layout.size
    | none =>
      if name ∈ progress.underWay then throw (.recursiveStruct name)
      match schema.struct? name, depth with
      | none, _ => throw (.missingStructType user (some name) (.service schema.service))
      | some _, 0 => throw (.recursiveStruct name)
      | some s, depth + 1 =>
        let place := Place.struct name
        LayoutT.begin name
        let ordered ← LayoutT.ofExcept (wireOrder s.members place)
        let (members, endOffset) ← layoutList (sizeOfStruct schema depth) ordered 0 place
        let size := WireSize.ofStruct name endOffset
        LayoutT.finish ⟨name, members, endOffset, size, s.usage⟩
        return size

/-- A nesting of structs that no schema exceeds. -/
def Schema.nesting (s : Schema) : Nat := s.structs.length + 1

/-- The layout of the struct with a name. -/
def layoutStruct (schema : Schema) (name : String) : LayoutT m StructLayout := do
  discard (sizeOfStruct schema schema.nesting name name)
  match (← get).struct? name with
  | some layout => return layout
  | none => throw (.recursiveStruct name)

end Build

/-- A session for one schema. -/
structure LayoutSession where
  schema : Schema
  progress : LayoutProgress := {}

namespace LayoutSession

section Build

variable {m : Type → Type} [Monad m]

/-- A step of the session: its result, and the session after it. -/
def runM {α : Type} (l : LayoutSession) (step : LayoutT m α) :
    m (Except SchemaError α × LayoutSession) := do
  let (result, progress) ← step.run.run l.progress
  return (result, { l with progress })

variable [Arithmetic m]

/-- The layout of the struct with a name. -/
def structM (l : LayoutSession) (name : String) :
    m (Except SchemaError StructLayout × LayoutSession) :=
  l.runM (layoutStruct l.schema name)

/-- The layouts of fields in wire order, and the place past the last one. -/
def fieldsM (l : LayoutSession) (ordered : List Field) (header : Nat) (place : Place) :
    m (Except SchemaError (List PlacedField × Offset) × LayoutSession) :=
  l.runM (layoutList (sizeOfStruct l.schema l.schema.nesting) ordered header place)

end Build

/-- A step of the session where sums wrap. -/
def run {α : Type} (l : LayoutSession) (step : LayoutM α) : Except SchemaError α × LayoutSession :=
  Id.run (l.runM step)

theorem run_eq {α : Type} (l : LayoutSession) (step : LayoutM α) :
    l.run step =
      ((step.run.run l.progress).1, { l with progress := (step.run.run l.progress).2 }) :=
  rfl

/-- The layout of the struct with a name, where sums wrap. -/
def struct (l : LayoutSession) (name : String) : Except SchemaError StructLayout × LayoutSession :=
  Id.run (l.structM name)

/-- The layouts of fields in wire order and the place past the last one, where sums wrap. -/
def fields (l : LayoutSession) (ordered : List Field) (header : Nat) (place : Place) :
    Except SchemaError (List PlacedField × Offset) × LayoutSession :=
  Id.run (l.fieldsM ordered header place)

/-- The finished structs in declaration order. -/
def structs (l : LayoutSession) : List StructLayout :=
  l.schema.structs.filterMap fun s => l.progress.struct? s.name

end LayoutSession

end WirePlan
