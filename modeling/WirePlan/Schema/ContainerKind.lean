/-!
# The kinds of containers

A message has up to four containers, one of each kind: two that the caller builds and two that come
back.
-/

namespace WirePlan

/-- The kind of a container. -/
inductive ContainerKind where
  | request | set | response | notification
  deriving DecidableEq, Repr

namespace ContainerKind

/-- All kinds, in the order in which a message holds them. -/
def all : List ContainerKind := [request, set, response, notification]

/-- The name of the kind. -/
def name : ContainerKind → String
  | request => "request"
  | set => "set"
  | response => "response"
  | notification => "notification"

/-- The kind with a name. -/
def ofName? (s : String) : Option ContainerKind := all.find? fun k => k.name = s

/-- The caller builds the container. -/
def isInput : ContainerKind → Bool
  | request | set => true
  | response | notification => false

end ContainerKind

end WirePlan
