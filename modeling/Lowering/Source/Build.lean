import Lowering.Source.Program

/-! Building trees step by step.

Keys are given out in order of creation; the root has key zero. A step that names a
node which was not created yet is refused. -/
namespace Lowering

namespace Tree

/-- The tree that holds nothing but a root. -/
def start (target : Name) : Tree where
  root := ⟨0⟩
  nodes := [{ key := ⟨0⟩, target }]

/-- Creates a node that has no parent yet. -/
def addNode (t : Tree) (target : Name) (id : Option String) : Tree :=
  { t with nodes := t.nodes ++ [{ key := ⟨UInt32.ofNat t.nodes.length⟩, target, id }] }

/-- Changes the node with a key, counted in order of creation. -/
def update? (t : Tree) (key : NodeKey) (change : Node → Node) : Option Tree :=
  if key.index.toNat < t.nodes.length then
    some { t with nodes := t.nodes.modify key.index.toNat change }
  else none

def setProperty? (t : Tree) (owner : NodeKey) (name : String) (value : PropertyValue) :
    Option Tree :=
  t.update? owner fun n => { n with properties := n.properties ++ [⟨name, value⟩] }

def setStyle? (t : Tree) (owner : NodeKey) (name : String) (value : Literal) : Option Tree :=
  t.update? owner fun n => { n with styles := n.styles ++ [⟨name, value⟩] }

def addContent? (t : Tree) (owner child : NodeKey) : Option Tree :=
  t.update? owner fun n => { n with content := n.content ++ [child] }

end Tree

end Lowering
