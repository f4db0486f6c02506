import Lowering.Linearize

/-! Event handlers.

Every event binding becomes a method that takes the event. The methods are numbered in
the order of the bindings, which is how the listeners of the instructions name them. A
class without a tree has no node to listen at, and so no event bindings. -/
namespace Lowering

/-- The name of a handler's only parameter. -/
def eventParam : String := "event"

/-- The method that handles an event. -/
structure Handler where
  name : String
  event : String
  /-- The node at which it listens. -/
  node : NodeKey
  /-- The declared type of the parameter. -/
  eventType : Option TypeRef
  body : List Stmt
deriving Repr, Inhabited

/-- The handler of an event binding. -/
def Handler.ofBinding (slot : HandlerSlot) (e : EventBinding) : Handler where
  name := slot.name
  event := e.event
  node := slot.node
  eventType := e.eventType
  body := e.body

namespace ClassDecl

variable (c : ClassDecl)

/-- The handler that a slot stands for. -/
def handlerAt (slot : HandlerSlot) : Except Error Handler :=
  match c.events[slot.binding]? with
  | some e => .ok (.ofBinding slot e)
  | none => .error (.internal c.name ("handler " ++ slot.name ++ " has no event binding"))

/-- The handlers of the class, in the order of its event bindings. -/
def eventHandlers : Option Linearized → Except Error (List Handler)
  | some l => l.handlers.mapM c.handlerAt
  | none =>
    match c.events.head? with
    | some e => .error (.unknownEventTarget c.name e.event e.node (e.location.or c.location))
    | none => .ok []

end ClassDecl

end Lowering
