import WirePlan.Layout.Session

/-!
# Plans

The plan of a schema is the layout of every container and of every struct (`Plan.ofSchemaM`).
Structs are laid out first, in declaration order, then the containers, each in wire order.
-/

namespace WirePlan

/-- The layout of a container. -/
structure ContainerLayout where
  kind : ContainerKind
  fields : List PlacedField
  /-- The place just past the last field. -/
  endOffset : Offset
  deriving DecidableEq, Repr

namespace ContainerLayout

/-- The layout of the field with a name. -/
def field? (c : ContainerLayout) (name : String) : Option PlacedField :=
  c.fields.find? (·.name = name)

/-- The container has the same number of bytes for all values. -/
def isFixed (c : ContainerLayout) : Bool := c.endOffset.isConstant

end ContainerLayout

/-- The layout of a message. -/
structure MessageLayout where
  name : String
  service : String
  id : UInt32
  containers : List ContainerLayout
  deriving DecidableEq, Repr

/-- The container of a kind. -/
def MessageLayout.container? (m : MessageLayout) (kind : ContainerKind) : Option ContainerLayout :=
  m.containers.find? (·.kind = kind)

/-- The plan of a schema. -/
structure Plan where
  service : String
  variant : Variant
  client? : Option String := none
  messageIds? : Option String := none
  messages : List MessageLayout
  structs : List StructLayout
  deriving DecidableEq, Repr

namespace Plan

/-- The message with a name. -/
def message? (p : Plan) (name : String) : Option MessageLayout := p.messages.find? (·.name = name)

/-- The struct with a name. -/
def struct? (p : Plan) (name : String) : Option StructLayout := p.structs.find? (·.name = name)

/-- The plan of messages that a session has laid out. -/
def ofSession (s : Schema) :
    Except SchemaError (List MessageLayout) × LayoutSession → Except SchemaError Plan
  | (.ok messages, session) => .ok {
    service := s.service, variant := s.variant, client? := s.client?
    messageIds? := s.messageIds?, messages, structs := session.structs }
  | (.error e, _) => .error e

section Build

variable {m : Type → Type} [Monad m] [Arithmetic m]

/-- The layout of a container. -/
def layoutContainer (s : Schema) (message : String) (c : Container) :
    LayoutT m ContainerLayout := do
  let place := Place.container message c.kind
  let ordered ← LayoutT.ofExcept (wireOrder c.fields place)
  let (fields, endOffset) ←
    layoutList (sizeOfStruct s s.nesting) ordered s.variant.headerSize place
  return ⟨c.kind, fields, endOffset⟩

/-- The layout of a message. -/
def layoutMessage (s : Schema) (message : Message) : LayoutT m MessageLayout := do
  let containers ← message.containers.mapM (layoutContainer s message.name)
  return ⟨message.name, message.service, message.id, containers⟩

/-- The layouts of all structs, kept by the session, and then of all messages. -/
def layoutMessages (s : Schema) : LayoutT m (List MessageLayout) := do
  discard (s.structs.mapM fun t => layoutStruct s t.name)
  s.messages.mapM (layoutMessage s)

/-- The plan of a checked schema. -/
def ofSchemaM (s : Schema) : m (Except SchemaError Plan) :=
  ofSession s <$> ({ schema := s : LayoutSession }).runM (layoutMessages s)

end Build

/-- The plan of a checked schema, where sums wrap. -/
def ofSchema (s : Schema) : Except SchemaError Plan := Id.run (ofSchemaM s)

theorem ofSchema_eq (s : Schema) :
    ofSchema s = ofSession s (LayoutSession.run { schema := s } (layoutMessages s)) := rfl

end Plan

end WirePlan
