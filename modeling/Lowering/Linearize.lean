import Lowering.Error
import Lowering.Instruction
import Lowering.Source.Class

/-! Linearizing declarative trees.

The keyed nodes of a tree become nested instructions. The walk goes from the root along
properties and content; it refuses a node that contains itself, a node with two
parents, a key without a node and nesting past 512 levels. A node keeps the identity
that the source gives it, and every other node but the root gets the next synthesized
one, in pre-order. Simple properties come before composite ones. Each event finds its
way to the listeners of its node. -/
namespace Lowering

/-- A field that the graph builder assigns. -/
structure BindingField where
  name : String
  target : Name
  /-- The source gives the name. -/
  exposed : Bool
  node : NodeKey
deriving DecidableEq, Repr, Inhabited

/-- A synthesized handler and the event binding it is made for. -/
structure HandlerSlot where
  name : String
  /-- The position of the event binding in its class. -/
  binding : Nat
  node : NodeKey
deriving DecidableEq, Repr, Inhabited

/-- The instructions of a class with the fields and handlers they refer to. -/
structure Linearized where
  root : Instruction
  /-- In the order of the instructions. -/
  bindings : List BindingField
  /-- In the order of the events. -/
  handlers : List HandlerSlot
deriving Inhabited

/-- A tree with what else is known of its class. -/
structure Markup where
  owner : Name
  tree : Tree
  events : List EventBinding := []
  /-- The place of nodes that have none of their own. -/
  location : Option Location := none

namespace Markup

/-- How deep below the root a node may stand. -/
def nestingLevels : Nat := 512

variable (m : Markup)

/-! ### Failures -/

def placeOf (n : Node) : Option Location := n.location.or m.location

def malformed (fault : TreeFault) (n : Node) : Error :=
  .malformedTree m.owner fault (m.placeOf n)

def unknownTarget (e : EventBinding) : Error :=
  .unknownEventTarget m.owner e.event e.node (e.location.or m.location)

/-! ### The walk -/

/-- What the walk has done so far. -/
structure Progress where
  /-- The nodes whose instruction is complete. -/
  finished : List NodeKey := []
  bindings : List BindingField := []
  /-- The identities that the source gave. -/
  ids : List String := []
  /-- The number of the next synthesized identity. -/
  next : Nat := 0

abbrev Walk (α : Type) := StateT Progress (Except Error) α

/-- A source-given identity, unless it is taken or looks synthesized. -/
def takeId (n : Node) (id : String) : Walk Identity := fun p =>
  if isBindingName id || isHandlerName id || id ∈ p.ids then
    .error (.duplicateIdentity m.owner id (m.placeOf n))
  else .ok (⟨id, true⟩, { p with ids := id :: p.ids })

/-- The next synthesized identity. -/
def makeId : Walk Identity := fun p =>
  .ok (⟨bindingName p.next, false⟩, { p with next := p.next + 1 })

/-- The identity of a node, noted as a field. -/
def bind (n : Node) : Walk Identity := do
  let identity ← match n.id with
    | some id => m.takeId n id
    | none => makeId
  modify fun p => { p with
    bindings := p.bindings ++ [⟨identity.name, n.target, identity.exposed, n.key⟩] }
  return identity

/-- The handlers that listen at a node, in the order of the events. -/
def listenersOf (key : NodeKey) : List Listener :=
  (m.events.zipIdx.filter fun (e, _) => e.node = key).map fun (e, i) =>
    ⟨e.event, handlerName i⟩

/-- How a child is walked, given the nodes on the way to it. -/
abbrev Descent := (path : List NodeKey) → Node → Walk Instruction

/-- The instruction of the child that `parent`, the first node of the path, refers to. -/
def child (descend : Descent) (path : List NodeKey) (parent : Node) (key : NodeKey) :
    Walk Instruction := do
  match m.tree.get? key with
  | none => throw (.danglingNode m.owner key (m.placeOf parent))
  | some n =>
    if key ∈ path then throw (.cyclicTree m.owner key n.target (m.placeOf parent))
    if key ∈ (← get).finished then throw (.sharedNode m.owner key n.target (m.placeOf parent))
    descend path n

def instructionValue (visit : NodeKey → Walk Instruction) : PropertyValue → Walk InstructionValue
  | .literal value => return .literal value
  | .expression value => return .expression value
  | .node key => return .node (← visit key)
  | .nodes keys => return .nodes (← keys.mapM visit)

/-- Whether a property of the root stands for its content. -/
def isRootContent (isRoot : Bool) (p : Property) : Bool :=
  match p.value with
  | .nodes _ => isRoot && p.name = contentProperty
  | _ => false

/-- The children that become content: those of the last property that stands for the
content, if there is one. -/
def contentOf (isRoot : Bool) (n : Node) : List NodeKey :=
  match (n.properties.filter (isRootContent isRoot)).getLast? with
  | some p => p.value.children
  | none => n.content

/-- Visits a property; one that stands for content is left for later. -/
def property (visit : NodeKey → Walk Instruction) (isRoot : Bool) (n : Node) (p : Property) :
    Walk (Option (String × InstructionValue)) := do
  if isIdentityProperty p.name then throw (m.malformed (.reservedProperty p.name) n)
  if isRoot && p.name = contentProperty && !n.content.isEmpty then
    throw (m.malformed (.contentTwice p.name) n)
  if isRootContent isRoot p then return none
  return some (p.name, ← instructionValue visit p.value)

/-- Simple properties, then composite ones. -/
def simpleFirst (properties : List (String × InstructionValue)) :
    List (String × InstructionValue) :=
  properties.filter (!·.2.isComposite) ++ properties.filter (·.2.isComposite)

/-- The instruction of a node; `above` are the nodes on the way to it. -/
def visit (descend : Descent) (isRoot : Bool) (above : List NodeKey) (n : Node) :
    Walk Instruction := do
  let identity ← if isRoot then pure none else some <$> m.bind n
  let child := m.child descend (n.key :: above) n
  let properties ← n.properties.mapM (m.property child isRoot n)
  let content ← (contentOf isRoot n).mapM child
  modify fun p => { p with finished := n.key :: p.finished }
  return {
    node := n.key
    target := n.target
    identity
    properties := simpleFirst (properties.filterMap id)
    styles := n.styles
    listeners := m.listenersOf n.key
    content }

/-- Walks a child while there are levels left for it. -/
def descend : (levels : Nat) → Descent
  | 0 => fun _ n => throw (m.malformed (.nestedTooDeep nestingLevels) n)
  | levels + 1 => m.visit (descend levels) false

/-! ### The whole tree -/

/-- The first node whose key an earlier one has. -/
def repeated? (seen : List NodeKey) : List Node → Option Node
  | [] => none
  | n :: rest => if n.key ∈ seen then some n else repeated? (n.key :: seen) rest

def handlers : List HandlerSlot :=
  m.events.zipIdx.map fun (e, i) => ⟨handlerName i, i, e.node⟩

/-- Checks the keys, the root and the targets of the events. -/
def checked : Except Error Node := do
  if let some n := repeated? [] m.tree.nodes then throw (m.malformed (.keyUsedTwice n.key) n)
  match m.tree.get? m.tree.root with
  | none => throw (.danglingNode m.owner m.tree.root m.location)
  | some root =>
    if root.id.isSome then throw (m.malformed .rootWithId root)
    if let some e := m.events.find? fun e => (m.tree.get? e.node).isNone then
      throw (m.unknownTarget e)
    return root

/-- The instructions of the tree. -/
def linearize : Except Error Linearized := do
  let root ← m.checked
  let (instruction, p) ← (m.visit (m.descend nestingLevels) true [] root).run {}
  if let some e := m.events.find? fun e => e.node ∉ p.finished then throw (m.unknownTarget e)
  return ⟨instruction, p.bindings, m.handlers⟩

end Markup

end Lowering
