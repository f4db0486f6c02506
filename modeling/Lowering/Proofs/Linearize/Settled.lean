import Lowering.Linearize
import Lowering.Proofs.Source.Reachability

/-! Trees with the content of the root in its place.

A node sequence that the root assigns to the content property is content, and of several
the last one is. Settling a tree puts that sequence where content stands and leaves the
earlier ones out, as the walk does when it visits a node (`Node.settled_properties`,
`Node.settled_content`). So the child links of a settled tree are those that linearization
follows. The links of the tree itself may be more: settling only takes links away
(`leadsTo_of_settled`). -/
namespace Lowering

/-- The node sequence that a property assigns to the content property. -/
def Property.contentSequence? (p : Property) : Option (List NodeKey) :=
  match p.value with
  | .nodes keys => if p.name = contentProperty then some keys else none
  | _ => none

namespace Node

/-- The node sequences that a node assigns to the content property, in their order. -/
def contentSequences (n : Node) : List (List NodeKey) := n.properties.filterMap (·.contentSequence?)

/-- The node with its content where content stands. Below the root that is where it is. At the root
the last content sequence is the content, if there is one, and none of them is a property. -/
def settled (isRoot : Bool) (n : Node) : Node where
  key := n.key
  target := n.target
  properties := if isRoot then n.properties.filter (·.contentSequence?.isNone) else n.properties
  styles := n.styles
  id := n.id
  content := if isRoot then n.contentSequences.getLast?.getD n.content else n.content
  location := n.location

theorem settled_false (n : Node) : n.settled false = n := rfl

end Node

/-! ### The rule of the walk -/

namespace Markup

/-- Below the root no property stands for content. -/
theorem isRootContent_false (p : Property) : isRootContent false p = false := by
  unfold isRootContent
  split
  · exact Bool.false_and _
  · rfl

/-- At the root the properties with a content sequence do. -/
theorem isRootContent_true (p : Property) : isRootContent true p = p.contentSequence?.isSome := by
  obtain ⟨name, value⟩ := p
  cases value with
  | nodes keys =>
    by_cases hname : name = contentProperty <;> simp [isRootContent, Property.contentSequence?, hname]
  | literal | expression | node => rfl

theorem children_of_contentSequence {p : Property} {keys : List NodeKey} (h : p.contentSequence? = some keys) :
    p.value.children = keys := by
  unfold Property.contentSequence? at h
  split at h
  next hvalue =>
    split at h
    · rw [hvalue]
      exact Option.some.inj h
    · cases h
  · cases h

end Markup

namespace Node

open Markup

variable (n : Node)

/-- The content sequences are the children of the properties that stand for the root's content. -/
theorem contentSequences_eq :
    n.contentSequences = (n.properties.filter (isRootContent true)).map (·.value.children) := by
  unfold contentSequences
  induction n.properties with
  | nil => rfl
  | cons p rest ih =>
    rw [List.filterMap_cons, List.filter_cons, isRootContent_true, ih]
    cases h : p.contentSequence? with
    | none => rfl
    | some keys =>
      rw [if_pos (by rfl), List.map_cons, children_of_contentSequence h]

/-- What is left as properties are those that the walk does not leave for later. -/
theorem settled_properties (isRoot : Bool) :
    (n.settled isRoot).properties = n.properties.filter (!isRootContent isRoot ·) := by
  cases isRoot with
  | false =>
    refine (List.filter_eq_self.mpr fun p _ => ?_).symm
    rw [isRootContent_false]
    rfl
  | true =>
    refine List.filter_congr fun p _ => ?_
    rw [isRootContent_true, Option.not_isSome]

/-- What is content is what the walk visits as content. -/
theorem settled_content (isRoot : Bool) : (n.settled isRoot).content = contentOf isRoot n := by
  unfold contentOf
  cases isRoot with
  | false =>
    have hnone : n.properties.filter (isRootContent false) = [] :=
      List.filter_eq_nil_iff.mpr fun p _ => by rw [isRootContent_false]; exact Bool.false_ne_true
    rw [hnone]
    rfl
  | true =>
    show n.contentSequences.getLast?.getD n.content = _
    rw [contentSequences_eq, List.getLast?_map]
    cases (n.properties.filter (isRootContent true)).getLast? <;> rfl

/-- Settling keeps only children that the node has. -/
theorem settled_children_subset {isRoot : Bool} {n : Node} : (n.settled isRoot).children ⊆ n.children := by
  intro k hk
  rw [children] at hk ⊢
  rcases List.mem_append.mp hk with hk | hk
  · obtain ⟨p, hp, hk⟩ := List.mem_flatMap.mp hk
    rw [settled_properties] at hp
    exact List.mem_append_left _ (List.mem_flatMap.mpr ⟨p, (List.mem_filter.mp hp).1, hk⟩)
  · rw [settled_content, contentOf] at hk
    split at hk
    next p hlast =>
      have hp := (List.mem_filter.mp (List.mem_of_getLast? hlast)).1
      exact List.mem_append_left _ (List.mem_flatMap.mpr ⟨p, hp, hk⟩)
    next => exact List.mem_append_right _ hk

end Node

namespace Tree

/-- The tree with the content of its root where content stands. -/
def settled (t : Tree) : Tree where
  root := t.root
  nodes := t.nodes.map fun n => n.settled (n.key = t.root)

variable {t : Tree}

theorem Distinct.settled (ht : t.Distinct) : t.settled.Distinct := by
  rw [Distinct, Tree.settled, List.map_map]
  exact ht

theorem get?_settled (key : NodeKey) :
    t.settled.get? key = (t.get? key).map fun n => n.settled (n.key = t.root) :=
  List.find?_map

theorem latest?_settled (key : NodeKey) :
    t.settled.latest? key = (t.latest? key).map fun n => n.settled (n.key = t.root) := by
  rw [latest?, latest?, Tree.settled, ← List.map_reverse]
  exact List.find?_map

/-- Settling takes links away and adds none. -/
theorem child_of_settled {a b : NodeKey} (h : t.settled.Child a b) : t.Child a b := by
  obtain ⟨m, hm, hb⟩ := h
  rw [latest?_settled] at hm
  obtain ⟨n, hn, rfl⟩ := Option.map_eq_some_iff.mp hm
  exact ⟨n, hn, Node.settled_children_subset hb⟩

theorem leadsTo_of_settled {a b : NodeKey} (h : t.settled.LeadsTo a b) : t.LeadsTo a b :=
  Relation.ReflTransGen.mono (fun _ _ => child_of_settled) _ _ h

/-- What a settled tree lists are nodes that the tree lists, settled. -/
theorem exists_of_mem_reachable_settled {m : Node} (hm : m ∈ t.settled.reachable) :
    ∃ n ∈ t.reachable, m = n.settled (n.key = t.root) := by
  obtain ⟨hlatest, hlead⟩ := mem_reachable.mp hm
  rw [latest?_settled] at hlatest
  obtain ⟨n, hn, rfl⟩ := Option.map_eq_some_iff.mp hlatest
  exact ⟨n, mem_reachable.mpr ⟨hn, leadsTo_of_settled hlead⟩, rfl⟩

theorem reachable_settled_subset :
    t.settled.reachable.map (·.key) ⊆ t.reachable.map (·.key) := by
  intro k hk
  obtain ⟨m, hm, rfl⟩ := List.mem_map.mp hk
  obtain ⟨n, hn, rfl⟩ := exists_of_mem_reachable_settled hm
  exact List.mem_map.mpr ⟨n, hn, rfl⟩

end Tree

end Lowering
