import Lowering.Proofs.Linearize.Coverage

/-! The object graph in the instructions.

A tree refers to nodes by key where its instructions hold the instructions of these nodes.
Every key has one instruction at most, so that the instruction of a key can be looked up;
and an instruction is what its node says with these instructions for the keys, the simple
properties before the composite ones (`graph_preserved`). At the root the content comes
from the last sequence that is assigned to it. -/
namespace Lowering

/-- The value with the instructions of the nodes for their keys. -/
def PropertyValue.instantiate (instructionOf : NodeKey → Instruction) : PropertyValue → InstructionValue
  | .literal value => .literal value
  | .expression value => .expression value
  | .node key => .node (instructionOf key)
  | .nodes keys => .nodes (keys.map instructionOf)

/-- The instruction of a node; a key without one has an empty instruction. -/
def Linearized.instructionOf (l : Linearized) (key : NodeKey) : Instruction :=
  (l.root.flatten.find? (·.node = key)).getD default

variable {instructionOf : NodeKey → Instruction}

theorem map_instructionOf {is : List Instruction} (h : ∀ i ∈ is, instructionOf i.node = i) :
    (is.map (·.node)).map instructionOf = is := by
  rw [List.map_map]
  exact (List.map_congr_left h).trans (List.map_id is)

/-- Keys for instructions and instructions for keys leave a value as it is. -/
theorem InstructionValue.instantiate_source {v : InstructionValue}
    (h : ∀ c ∈ v.children, instructionOf c.node = c) : v.source.instantiate instructionOf = v := by
  cases v with
  | literal => rfl
  | expression => rfl
  | node child => exact congrArg InstructionValue.node (h child List.mem_cons_self)
  | nodes children => exact congrArg InstructionValue.nodes (map_instructionOf h)

/-- The properties of an instruction are those of its node with instructions for the keys. -/
theorem Instruction.MadeFor.properties_eq {i : Instruction} {n : Node} (h : i.MadeFor n)
    (hchildren : ∀ c ∈ i.children, instructionOf c.node = c) :
    i.properties = (Property.simpleFirst n.properties).map fun p =>
      (p.name, p.value.instantiate instructionOf) := by
  have hvalue : ∀ p ∈ i.properties, (p.1, p.2.source.instantiate instructionOf) = p := by
    intro p hp
    have hnested : ∀ c ∈ p.2.children, instructionOf c.node = c := fun c hc =>
      hchildren c (List.mem_append_left _ (List.mem_flatMap.mpr ⟨p, hp, hc⟩))
    rw [InstructionValue.instantiate_source hnested]
  rw [← h.properties, List.map_map]
  exact ((List.map_congr_left hvalue).trans (List.map_id _)).symm

theorem Instruction.MadeFor.content_eq {i : Instruction} {n : Node} (h : i.MadeFor n)
    (hchildren : ∀ c ∈ i.children, instructionOf c.node = c) : i.content = n.content.map instructionOf := by
  rw [← h.content, map_instructionOf fun c hc => hchildren c (List.mem_append_right _ hc)]

/-- The instruction is the node with the instructions of its children for their keys, the
simple properties before the composite ones. At the root of the tree content sequences are no
properties and the last of them is the content, and the root alone has no identity. -/
structure Linearized.Depicts (l : Linearized) (t : Tree) (n : Node) (i : Instruction) : Prop where
  target : i.target = n.target
  styles : i.styles = n.styles
  properties : i.properties = (Property.simpleFirst (n.settled (n.key = t.root)).properties).map fun p =>
    (p.name, p.value.instantiate l.instructionOf)
  content : i.content = (n.settled (n.key = t.root)).content.map l.instructionOf
  children : ∀ key ∈ (n.settled (n.key = t.root)).children, (l.instructionOf key).node = key
  identity : if n.key = t.root then i.identity = none else i.Named n

namespace Markup.Rendered

variable {m : Markup} {l : Linearized} (h : m.Rendered l)

include h

/-- An instruction is the one of its node. -/
theorem instructionOf_node {i : Instruction} (hi : i ∈ l.root.flatten) : l.instructionOf i.node = i := by
  rw [Linearized.instructionOf, Tree.find?_of_mem h.once hi, Option.getD_some]

theorem instructionOf_child {i c : Instruction} (hi : i ∈ l.root.flatten) (hc : c ∈ i.children) :
    l.instructionOf c.node = c :=
  h.instructionOf_node
    (Instruction.flatten_trans hi (Instruction.mem_flatten_of_child hc c.self_mem_flatten))

theorem depicts {i : Instruction} (hi : i ∈ l.root.flatten) :
    ∃ n, m.tree.get? i.node = some n ∧ l.Depicts m.tree n i := by
  obtain ⟨n, hn, hmade, hidentity⟩ := h.node_of hi
  have hchildren : ∀ c ∈ i.children, l.instructionOf c.node = c := fun _ hc => h.instructionOf_child hi hc
  refine ⟨n, hn, hmade.target, hmade.styles, hmade.properties_eq hchildren, hmade.content_eq hchildren,
    fun key hkey => ?_, ?_⟩
  · rw [← hmade.children] at hkey
    obtain ⟨c, hc, rfl⟩ := List.mem_map.mp hkey
    rw [hchildren c hc]
  · rcases hidentity with ⟨hroot, -, hnone⟩ | ⟨hother, hnamed⟩
    · rwa [if_pos hroot]
    · rwa [if_neg hother]

end Markup.Rendered

/-- **The instructions are the object graph of the tree: that of the root is for the root node
and has no identity, each node has one at most, and each depicts its node.** -/
theorem graph_preserved (m : Markup) (l : Linearized) (h : m.linearize = .ok l) :
    l.root.node = m.tree.root ∧ l.root.identity = none ∧
      ∀ i ∈ l.root.flatten, l.instructionOf i.node = i ∧
        ∃ n, m.tree.get? i.node = some n ∧ l.Depicts m.tree n i := by
  have hl := Markup.linearize_renders h
  obtain ⟨r, hr⟩ := hl.root
  exact ⟨hl.root_node, hr.identity, fun i hi => ⟨hl.instructionOf_node hi, hl.depicts hi⟩⟩

/-- A form whose content is assigned twice and stands before a composite and a simple property;
a box in it has a composite property before a simple one. -/
def form : Markup where
  owner := ⟨"app.Form"⟩
  tree := {
    root := ⟨0⟩
    nodes := [
      { key := ⟨0⟩, target := ⟨"ui.Form"⟩
        properties := [⟨contentProperty, .nodes [⟨4⟩]⟩, ⟨"header", .node ⟨1⟩⟩,
          ⟨contentProperty, .nodes [⟨2⟩]⟩, ⟨"title", .literal (.string "Form")⟩] },
      { key := ⟨1⟩, target := ⟨"ui.Label"⟩, id := some "head" },
      { key := ⟨2⟩, target := ⟨"ui.Box"⟩
        properties := [⟨"icon", .node ⟨3⟩⟩, ⟨"label", .expression (.ident "title")⟩] },
      { key := ⟨3⟩, target := ⟨"ui.Image"⟩ },
      { key := ⟨4⟩, target := ⟨"ui.Spacer"⟩ }] }

/-- The box is the content of the form, and its label comes before its icon. -/
theorem form_graph_preserved :
    ∃ l, form.linearize = .ok l ∧ l.root.identity = none ∧
      l.root.content.map (·.node) = [⟨2⟩] ∧
      (l.instructionOf ⟨2⟩).properties =
        [("label", .expression (.ident "title")), ("icon", .node (l.instructionOf ⟨3⟩))] ∧
      ∀ i ∈ l.root.flatten, ∃ n, form.tree.get? i.node = some n ∧ l.Depicts form.tree n i := by
  obtain ⟨-, hidentity, hgraph⟩ := graph_preserved form _ rfl
  refine ⟨_, rfl, hidentity, rfl, rfl, fun i hi => (hgraph i hi).2⟩

end Lowering
