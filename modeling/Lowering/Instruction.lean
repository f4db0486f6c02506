import Lowering.Source.Tree
import Lowering.Name.Mangling

/-! Instructions for the graph builder.

The runtime builds the objects of a markup class from one instruction per node, nested
the way the tree is. An instruction names its type, the field that the instance is
assigned to, its properties with the simple ones first, its styles, the handlers that
listen to its events, and the children without a property of their own. -/
namespace Lowering

/-- The field that the builder assigns an instance to. -/
structure Identity where
  name : String
  /-- The source gives the name, and an accessor pair exposes the field. -/
  exposed : Bool
deriving DecidableEq, Repr, Inhabited

/-- The builder's property that receives an exposed name. -/
def exposedProperty : String := "id"

/-- The builder's property that receives a synthesized name. -/
def synthesizedProperty : String := "_id"

/-- The property that carries the content of the root. -/
def contentProperty : String := "mxmlContent"

def Identity.property (i : Identity) : String :=
  if i.exposed then exposedProperty else synthesizedProperty

/-- Whether identity bindings use the name of a property. -/
def isIdentityProperty (name : String) : Bool :=
  name = exposedProperty || name = synthesizedProperty

/-- An event and the handler that listens to it. -/
structure Listener where
  event : String
  handler : String
deriving DecidableEq, Repr, Inhabited

mutual

/-- What an instruction assigns to a property. -/
inductive InstructionValue where
  | literal (value : Literal)
  | expression (value : Expr)
  | node (child : Instruction)
  | nodes (children : List Instruction)

/-- What the builder does for one node. -/
structure Instruction where
  /-- The node it was made for. -/
  node : NodeKey
  target : Name
  /-- Every instruction but the root's has one. -/
  identity : Option Identity
  properties : List (String × InstructionValue)
  styles : List Style
  listeners : List Listener
  content : List Instruction

end

instance : Inhabited Instruction := ⟨⟨default, default, none, [], [], [], []⟩⟩

/-- Whether the value holds nested instructions. -/
def InstructionValue.isComposite : InstructionValue → Bool
  | .literal _ | .expression _ => false
  | .node _ | .nodes _ => true

namespace Instruction

mutual

/-- The instruction and every nested one, in pre-order. -/
def flatten : Instruction → List Instruction
  | i@⟨_, _, _, properties, _, _, content⟩ =>
    i :: (flattenProperties properties ++ flattenAll content)

def flattenProperties : List (String × InstructionValue) → List Instruction
  | [] => []
  | (_, .node child) :: rest => child.flatten ++ flattenProperties rest
  | (_, .nodes children) :: rest => flattenAll children ++ flattenProperties rest
  | (_, .literal _) :: rest => flattenProperties rest
  | (_, .expression _) :: rest => flattenProperties rest

def flattenAll : List Instruction → List Instruction
  | [] => []
  | i :: rest => i.flatten ++ flattenAll rest

end

/-- How many properties the identity takes. -/
def identityArity (i : Instruction) : Nat := i.identity.toList.length

/-- How many properties the builder receives, the identity included. -/
def propertyCount (i : Instruction) : Nat := i.identityArity + i.properties.length

end Instruction

end Lowering
