import Lowering.Location
import Lowering.Source.Expr

/-! Declarative object trees.

A markup class describes a graph of objects: each node names a component type and
sets properties, some of which hold further nodes. The nodes are listed with keys
and refer to each other by key, so a tree as written may have cycles, shared and
missing nodes; linearization reports those. What is reachable from the root is
listed in depth-first pre-order, each node once. -/
namespace Lowering

/-- The key of a node within its tree. -/
structure NodeKey where
  index : UInt32
deriving DecidableEq, Repr, Inhabited

/-- The key as it is written in messages. -/
def NodeKey.text (k : NodeKey) : String := s!"#{k.index.toNat}"

/-- What is assigned to a property of a node. -/
inductive PropertyValue where
  | literal (value : Literal)
  | expression (value : Expr)
  /-- One nested node. -/
  | node (key : NodeKey)
  /-- A sequence of nested nodes. -/
  | nodes (keys : List NodeKey)
deriving Repr, Inhabited

namespace PropertyValue

/-- Whether the value holds nested nodes. -/
def isComposite : PropertyValue → Bool
  | literal _ | expression _ => false
  | node _ | nodes _ => true

/-- The nested nodes in order. -/
def children : PropertyValue → List NodeKey
  | literal _ | expression _ => []
  | node key => [key]
  | nodes keys => keys

end PropertyValue

structure Property where
  name : String
  value : PropertyValue
deriving Repr, Inhabited

structure Style where
  name : String
  value : Literal
deriving DecidableEq, Repr, Inhabited

/-- One object of the tree. -/
structure Node where
  key : NodeKey
  /-- The type that is instantiated. -/
  target : Name
  properties : List Property := []
  styles : List Style := []
  /-- The identity binding that the source gives. -/
  id : Option String := none
  /-- Children without a property of their own. -/
  content : List NodeKey := []
  location : Option Location := none
deriving Repr, Inhabited

/-- The keys of every child in source order. -/
def Node.children (n : Node) : List NodeKey :=
  n.properties.flatMap (·.value.children) ++ n.content

/-- The nodes of one class and which of them is the root. -/
structure Tree where
  root : NodeKey
  nodes : List Node
deriving Repr, Inhabited

namespace Tree

/-- The first node with a key. -/
def get? (t : Tree) (key : NodeKey) : Option Node :=
  t.nodes.find? (·.key = key)

/-- The last node with a key, the one that reachability follows when a key is used twice. -/
def latest? (t : Tree) (key : NodeKey) : Option Node :=
  t.nodes.reverse.find? (·.key = key)

theorem latest?_mem {t : Tree} {key : NodeKey} {n : Node} (h : t.latest? key = some n) :
    n ∈ t.nodes ∧ n.key = key :=
  ⟨List.mem_reverse.mp (List.mem_of_find?_eq_some h),
    by simpa using List.find?_some h⟩

/-- The nodes that a traversal has still to list. -/
def unlisted (t : Tree) (seen : List NodeKey) : Nat :=
  t.nodes.countP fun n => n.key ∉ seen

theorem unlisted_le (t : Tree) (seen : List NodeKey) (key : NodeKey) :
    t.unlisted (key :: seen) ≤ t.unlisted seen :=
  List.countP_mono_left fun n _ h => by simp_all

/-- Listing a node for the first time leaves fewer to list. -/
theorem unlisted_lt {t : Tree} {seen : List NodeKey} {n : Node} (hn : n ∈ t.nodes)
    (hs : n.key ∉ seen) : t.unlisted (n.key :: seen) < t.unlisted seen := by
  obtain ⟨before, after, hsplit⟩ := List.append_of_mem hn
  have hle (l : List Node) : (l.countP fun m => m.key ∉ n.key :: seen) ≤
      l.countP fun m => m.key ∉ seen := List.countP_mono_left fun m _ h => by simp_all
  have hbefore := hle before
  have hafter := hle after
  have hlisted : decide (n.key ∉ n.key :: seen) = false := by simp
  have hfresh : decide (n.key ∉ seen) = true := by simp [hs]
  simp only [unlisted, hsplit, List.countP_append, List.countP_cons, hlisted, hfresh, if_true,
    Bool.false_eq_true, if_false]
  omega

/-- Lists what the stack of keys leads to, in pre-order, without the keys in `seen`. -/
def reach (t : Tree) (seen : List NodeKey) (stack : List NodeKey) : List Node :=
  match stack with
  | [] => []
  | key :: rest =>
    if _ : key ∈ seen then t.reach seen rest
    else match _ : t.latest? key with
      | none => t.reach (key :: seen) rest
      | some n => n :: t.reach (key :: seen) (n.children ++ rest)
termination_by (t.unlisted seen, stack.length)
decreasing_by
  · exact Prod.Lex.right _ (Nat.lt_succ_self _)
  · rcases Nat.lt_or_eq_of_le (t.unlisted_le seen key) with hlt | heq
    · exact Prod.Lex.left _ _ hlt
    · rw [heq]
      exact Prod.Lex.right _ (by simp)
  · obtain ⟨hmem, hkey⟩ := latest?_mem ‹t.latest? key = some _›
    subst hkey
    exact Prod.Lex.left _ _ (unlisted_lt hmem ‹_›)

/-- The nodes reachable from the root, each once and the root first; missing keys are
passed over. -/
def reachable (t : Tree) : List Node :=
  t.reach [] [t.root]

end Tree

end Lowering
