import WirePlan.Schema.Declaration
import WirePlan.Schema.Error

/-!
# Templates put in place

Every use of a template becomes a copy of it. A use that gives prerequisites of its own, even none
at all, has these in place of the template's. Templates of one kind have different names, and a
field template must have a known format whether it is used or not.
-/

namespace WirePlan

namespace Declarations

/-- The field template with a name. -/
def fragment? (d : Declarations) (name : String) : Option (DeclaredField PrerequisiteUse) :=
  (d.fragments.find? (·.name = name)).map (·.value)

/-- The prerequisite template with a name. -/
def prerequisite? (d : Declarations) (name : String) : Option Prerequisite :=
  (d.prerequisites.find? (·.name = name)).map (·.value)

/-- Checks field templates in order; `seen` holds the names of those before. -/
def checkFragments (seen : List String) :
    List (Shared (DeclaredField PrerequisiteUse)) → Except SchemaError Unit
  | [] => .ok ()
  | t :: rest =>
    match Format.ofTag? t.value.format with
    | none => .error (.unknownFormat t.value.format (.fragment t.name))
    | some _ =>
      if t.name ∈ seen then .error (.duplicate .fragment t.name (.fragment t.name))
      else checkFragments (t.name :: seen) rest

/-- Checks prerequisite templates in order; `seen` holds the names of those before. -/
def checkPrerequisites (seen : List String) : List (Shared Prerequisite) → Except SchemaError Unit
  | [] => .ok ()
  | t :: rest =>
    if t.name ∈ seen then .error (.duplicate .sharedPrerequisite t.name .schema)
    else checkPrerequisites (t.name :: seen) rest

/-- A prerequisite of a list at a place. -/
def expandPrerequisite (d : Declarations) (place : Place) :
    PrerequisiteUse → Except SchemaError Prerequisite
  | .inline p => .ok p
  | .shared name =>
    match d.prerequisite? name with
    | some p => .ok p
    | none => .error (.fragmentNotFound name place)

/-- A list of prerequisites at a place. -/
def expandPrerequisites (d : Declarations) (place : Place) (uses : List PrerequisiteUse) :
    Except SchemaError (List Prerequisite) :=
  uses.mapM (d.expandPrerequisite place)

/-- A field of a list. -/
def expandField (d : Declarations) (list : Place) : FieldUse → Except SchemaError ExpandedField
  | .inline f => do
    let prerequisites ← d.expandPrerequisites (.field list f.name) f.prerequisites
    return { f with prerequisites }
  | .shared name own? =>
    match d.fragment? name with
    | none => .error (.fragmentNotFound name list)
    | some f => do
      let prerequisites ← d.expandPrerequisites (.use list name) (own?.getD f.prerequisites)
      return { f with prerequisites, origin? := some name }

/-- A list of fields. -/
def expandFields (d : Declarations) (list : Place) (uses : List FieldUse) :
    Except SchemaError (List ExpandedField) :=
  uses.mapM (d.expandField list)

/-- A struct. -/
def expandStruct (d : Declarations) (s : DeclaredStruct FieldUse) :
    Except SchemaError (DeclaredStruct ExpandedField) := do
  return ⟨s.name, ← d.expandFields (.struct s.name) s.members⟩

/-- A container of a message. -/
def expandContainer (d : Declarations) (message : String)
    (c : ContainerKind × List FieldUse) :
    Except SchemaError (ContainerKind × List ExpandedField) := do
  return (c.1, ← d.expandFields (.container message c.1) c.2)

/-- A message. -/
def expandMessage (d : Declarations) (m : DeclaredMessage FieldUse) :
    Except SchemaError (DeclaredMessage ExpandedField) := do
  return { m with containers := ← m.containers.mapM (d.expandContainer m.name) }

/-- The declarations with every template put in place: structs first, then messages. -/
def expand (d : Declarations) : Except SchemaError Expanded := do
  checkFragments [] d.fragments
  checkPrerequisites [] d.prerequisites
  let structs ← d.structs.mapM d.expandStruct
  let messages ← d.messages.mapM d.expandMessage
  return ⟨d.names, messages, structs⟩

end Declarations

end WirePlan
