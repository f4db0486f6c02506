import Lowering.Dependency
import Lowering.Instruction.Token
import Mathlib.Data.List.Basic

/-! Instructions and the nodes they are made for.

An instruction lists itself and what its children list, so that a property of every
nested instruction is proved by going from an instruction to its children
(`Instruction.nesting`). What an instruction says of its node is its own type, styles,
properties and content, with the keys of the child nodes where the child instructions
stand (`Instruction.MadeFor`); its children are then those of the node, in their order. -/
namespace Lowering

/-- The nested instructions in order. -/
def InstructionValue.children : InstructionValue → List Instruction
  | .literal _ | .expression _ => []
  | .node child => [child]
  | .nodes children => children

/-- The value with the keys of the nodes for their instructions. -/
def InstructionValue.source : InstructionValue → PropertyValue
  | .literal value => .literal value
  | .expression value => .expression value
  | .node child => .node child.node
  | .nodes children => .nodes (children.map (·.node))

/-- The expression that a value is. -/
def InstructionValue.expression? : InstructionValue → Option Expr
  | .expression value => some value
  | _ => none

/-- A simple value has no children. -/
theorem PropertyValue.children_of_simple {v : PropertyValue} (h : v.isComposite = false) :
    v.children = [] := by
  cases v with
  | literal => rfl
  | expression => rfl
  | node => exact absurd h (by simp [isComposite])
  | nodes => exact absurd h (by simp [isComposite])

namespace InstructionValue

theorem source_children (v : InstructionValue) : v.source.children = v.children.map (·.node) := by
  cases v <;> rfl

theorem source_isComposite (v : InstructionValue) : v.source.isComposite = v.isComposite := by
  cases v <;> rfl

/-- A simple value nests nothing. -/
theorem children_of_simple {v : InstructionValue} (h : v.isComposite = false) : v.children = [] := by
  have hsource := PropertyValue.children_of_simple ((source_isComposite v).trans h)
  rw [source_children] at hsource
  exact List.map_eq_nil_iff.mp hsource

end InstructionValue

namespace Instruction

/-! ### Nesting -/

/-- The instructions directly inside, those of the properties before the content. -/
def children (i : Instruction) : List Instruction :=
  i.properties.flatMap (·.2.children) ++ i.content

/-- The expressions that the instruction's own properties hold. -/
def exprs (i : Instruction) : List Expr := i.properties.filterMap (·.2.expression?)

theorem flattenAll_eq (is : List Instruction) : flattenAll is = is.flatMap flatten := by
  induction is with
  | nil => rfl
  | cons i rest ih => rw [flattenAll, ih, List.flatMap_cons]

theorem flattenProperties_eq (ps : List (String × InstructionValue)) :
    flattenProperties ps = (ps.flatMap (·.2.children)).flatMap flatten := by
  induction ps with
  | nil => rfl
  | cons p rest ih =>
    obtain ⟨name, v⟩ := p
    cases v <;>
      simp [flattenProperties, InstructionValue.children, ih, flattenAll_eq]

/-- An instruction is listed before what its children list. -/
theorem flatten_eq (i : Instruction) : i.flatten = i :: i.children.flatMap flatten := by
  obtain ⟨_, _, _, properties, _, _, content⟩ := i
  rw [flatten, flattenProperties_eq, flattenAll_eq, children, List.flatMap_append]

theorem self_mem_flatten (i : Instruction) : i ∈ i.flatten := by
  rw [flatten_eq]
  exact List.mem_cons_self

theorem sizeOf_child {i c : Instruction} (h : c ∈ i.children) : sizeOf c < sizeOf i := by
  obtain ⟨_, _, _, properties, _, _, content⟩ := i
  rw [Instruction.mk.sizeOf_spec]
  rcases List.mem_append.mp h with h | h
  · obtain ⟨⟨name, v⟩, hp, hc⟩ := List.mem_flatMap.mp h
    have hproperty := List.sizeOf_lt_of_mem hp
    cases v with
    | literal => exact absurd hc List.not_mem_nil
    | expression => exact absurd hc List.not_mem_nil
    | node child =>
      obtain rfl := List.mem_singleton.mp hc
      simp only [Prod.mk.sizeOf_spec, InstructionValue.node.sizeOf_spec] at hproperty
      omega
    | nodes children =>
      have hchild : sizeOf c < sizeOf children := List.sizeOf_lt_of_mem hc
      simp only [Prod.mk.sizeOf_spec, InstructionValue.nodes.sizeOf_spec] at hproperty
      omega
  · have hchild : sizeOf c < sizeOf content := List.sizeOf_lt_of_mem h
    omega

/-- What holds of an instruction as soon as it holds of its children holds of all. -/
theorem nesting {P : Instruction → Prop} (step : ∀ i : Instruction, (∀ c ∈ i.children, P c) → P i)
    (i : Instruction) : P i :=
  step i fun c _ => nesting step c
termination_by sizeOf i
decreasing_by exact sizeOf_child ‹_›

/-- What the children list, the instruction lists. -/
theorem mem_flatten_of_child {i c j : Instruction} (hc : c ∈ i.children) (hj : j ∈ c.flatten) :
    j ∈ i.flatten := by
  rw [flatten_eq]
  exact List.mem_cons_of_mem i (List.mem_flatMap.mpr ⟨c, hc, hj⟩)

theorem flatten_trans {i j k : Instruction} (hj : j ∈ i.flatten) (hk : k ∈ j.flatten) :
    k ∈ i.flatten := by
  induction i using nesting with
  | step i ih =>
    rw [flatten_eq] at hj
    rcases List.mem_cons.mp hj with rfl | hj
    · exact hk
    · obtain ⟨c, hc, hj⟩ := List.mem_flatMap.mp hj
      exact mem_flatten_of_child hc (ih c hc hj)

/-! ### The content of the root -/

theorem rootContent_exprs (i : Instruction) : i.rootContent.filterMap (·.2.expression?) = [] := by
  unfold rootContent
  split <;> rfl

theorem rootContent_children (i : Instruction) : i.rootContent.flatMap (·.2.children) = i.content := by
  unfold rootContent
  split
  next h => exact (List.isEmpty_iff.mp h).symm
  next => exact List.append_nil _

end Instruction

/-! ### Simple properties first -/

/-- The expression that a value is. -/
def PropertyValue.expression? : PropertyValue → Option Expr
  | .expression value => some value
  | _ => none

theorem Node.exprs_eq (n : Node) : n.exprs = n.properties.filterMap (·.value.expression?) := rfl

/-- Putting first what contributes nothing leaves the contributions in their order. -/
theorem flatMap_reorder {α β : Type} {f : α → List β} {late : α → Bool}
    (h : ∀ a, late a = false → f a = []) (l : List α) :
    (l.filter (!late ·) ++ l.filter late).flatMap f = l.flatMap f := by
  have hearly : (l.filter (!late ·)).flatMap f = [] :=
    List.flatMap_eq_nil_iff.mpr fun a ha => h a (by simpa using (List.mem_filter.mp ha).2)
  have hlate : (l.filter late).flatMap f = l.flatMap f := by
    clear hearly
    induction l with
    | nil => rfl
    | cons a rest ih =>
      cases ha : late a
      · simp [ha, ih, h a ha]
      · simp [ha, ih]
  rw [List.flatMap_append, hearly, hlate, List.nil_append]

/-- Putting last what contributes nothing leaves the contributions in their order. -/
theorem filterMap_reorder {α β : Type} {f : α → Option β} {late : α → Bool}
    (h : ∀ a, late a = true → f a = none) (l : List α) :
    (l.filter (!late ·) ++ l.filter late).filterMap f = l.filterMap f := by
  have hlate : (l.filter late).filterMap f = [] :=
    List.filterMap_eq_nil_iff.mpr fun a ha => h a (List.mem_filter.mp ha).2
  have hearly : (l.filter (!late ·)).filterMap f = l.filterMap f := by
    clear hlate
    induction l with
    | nil => rfl
    | cons a rest ih =>
      cases ha : late a
      · simp [ha, ih, List.filterMap_cons]
      · simp [ha, ih, h a ha]
  rw [List.filterMap_append, hearly, hlate, List.append_nil]

/-- Simple properties, then composite ones. -/
def Property.simpleFirst (properties : List Property) : List Property :=
  properties.filter (!·.value.isComposite) ++ properties.filter (·.value.isComposite)

/-! ### Nodes -/

/-- The instruction says of its node what the node says itself, its simple properties first. -/
structure Instruction.MadeFor (i : Instruction) (n : Node) : Prop where
  node : i.node = n.key
  target : i.target = n.target
  styles : i.styles = n.styles
  properties :
    i.properties.map (fun p => (⟨p.1, p.2.source⟩ : Property)) = Property.simpleFirst n.properties
  content : i.content.map (·.node) = n.content

namespace Instruction.MadeFor

variable {i : Instruction} {n : Node}

/-- The children of the instruction are those of the node, in the same order. -/
theorem children (h : i.MadeFor n) : i.children.map (·.node) = n.children := by
  have hproperties := congrArg (List.flatMap (·.value.children)) h.properties
  rw [Property.simpleFirst, flatMap_reorder (fun _ => PropertyValue.children_of_simple),
    List.flatMap_map] at hproperties
  simp only [InstructionValue.source_children] at hproperties
  rw [Instruction.children, List.map_append, List.map_flatMap, hproperties, h.content, Node.children]

/-- So are its expressions. -/
theorem exprs (h : i.MadeFor n) : i.exprs = n.exprs := by
  have hsource (v : InstructionValue) : v.source.expression? = v.expression? := by
    cases v <;> rfl
  have hcomposite (p : Property) (hp : p.value.isComposite = true) : p.value.expression? = none := by
    cases hv : p.value <;> simp_all [PropertyValue.isComposite, PropertyValue.expression?]
  have hproperties := congrArg (List.filterMap (·.value.expression?)) h.properties
  rw [Property.simpleFirst, filterMap_reorder hcomposite, List.filterMap_map] at hproperties
  rw [Node.exprs_eq, ← hproperties, Instruction.exprs]
  exact List.filterMap_congr fun p _ => (hsource p.2).symm

end Instruction.MadeFor

end Lowering
