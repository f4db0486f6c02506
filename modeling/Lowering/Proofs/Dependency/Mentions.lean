import Lowering.Dependency
import Lowering.Proofs.Linearize.Settled
import Mathlib.Data.List.Basic
import Mathlib.Data.List.Sort

/-! Which classes a declaration mentions.

A declaration mentions the classes that its parts name and those that its expressions
refer to. What it needs are the mentioned classes and the registered support classes,
without the class itself. Code is not made of all of a declaration: an interface is
written with its interfaces and the signatures of its methods alone, and of a markup
class the settled tree is written. The written part mentions nothing that the whole
declaration does not. -/
namespace Lowering

/-- Sets with the same members are one. -/
theorem NameSet.ext {s s' : NameSet} (h : ∀ n, n ∈ s ↔ n ∈ s') : s = s' := by
  obtain ⟨names, hs⟩ := s
  obtain ⟨names', hs'⟩ := s'
  have hirrefl : Std.Irrefl (α := Name) (· < ·) := ⟨Name.lt_irrefl⟩
  have hantisymm : Std.Antisymm (α := Name) (· < ·) :=
    ⟨fun a b hab hba => absurd (Name.lt_trans hab hba) (Name.lt_irrefl a)⟩
  obtain rfl := hs.eq_of_mem_iff hs' h
  rfl

/-! ### Trees -/

/-- The types of the nodes below the root. -/
def Tree.targets (t : Tree) : List Name :=
  t.reachable.flatMap fun m => if m.key = t.root then [] else [m.target]

theorem Tree.mem_targets {t : Tree} {n : Name} :
    n ∈ t.targets ↔ ∃ m ∈ t.reachable, m.key ≠ t.root ∧ n = m.target := by
  rw [targets, List.mem_flatMap]
  refine exists_congr fun m => and_congr_right fun _ => ?_
  by_cases hkey : m.key = t.root
  · simp [hkey]
  · simp [hkey]

theorem Tree.targets_settled_subset (t : Tree) : t.settled.targets ⊆ t.targets := by
  intro n hn
  obtain ⟨m, hm, hkey, rfl⟩ := mem_targets.mp hn
  obtain ⟨m', hm', rfl⟩ := exists_of_mem_reachable_settled hm
  exact mem_targets.mpr ⟨m', hm', hkey, rfl⟩

/-- Settling keeps the expressions of a node, since none is content. -/
theorem Node.exprs_settled (m : Node) (isRoot : Bool) : (m.settled isRoot).exprs = m.exprs := by
  rw [exprs, settled_properties, List.filterMap_filter]
  refine List.filterMap_congr fun p _ => ?_
  cases hvalue : p.value <;> simp [Markup.isRootContent, hvalue]

namespace ClassDecl

variable {c : ClassDecl} {n : Name}

/-! ### Mentions -/

/-- The classes that a declaration names, besides its tree, its expressions and the
signatures of its methods. -/
def slotNames (c : ClassDecl) : List Name :=
  c.base.toList ++ c.interfaces ++ c.fields.flatMap (·.type.declared?.toList) ++
    c.accessors.flatMap (·.type.declared?.toList) ++
    c.events.flatMap fun e => e.eventType.toList.flatMap (·.declared?.toList)

/-- The classes that a declaration names, besides its expressions and the signatures of its
methods. -/
def named (c : ClassDecl) : List Name := c.slotNames ++ c.tree.toList.flatMap (·.targets)

/-- The classes in the signatures of the declared methods. -/
def signatureNames (c : ClassDecl) : List Name :=
  c.methods.flatMap fun m =>
    m.params.flatMap (·.type.declared?.toList) ++ m.returnType.declared?.toList

/-- Parts that mention names and expressions mention the names and what the expressions
refer to. -/
theorem mem_flatMap_mentions {α : Type} (items : List α) {mention : α → List Mention}
    {names : α → List Name} {exprs : α → List Expr}
    (h : ∀ a, (mention a).map (·.name) = names a ++ (exprs a).flatMap (·.references)) :
    n ∈ (items.flatMap mention).map (·.name) ↔
      n ∈ items.flatMap names ∨ ∃ e ∈ items.flatMap exprs, n ∈ e.references := by
  rw [List.map_flatMap]
  simp only [h, List.mem_flatMap, List.mem_append]
  grind

/-- The references of expressions, at any place. -/
theorem names_of_mentions (location : Option Location) (es : List Expr) :
    (es.flatMap (·.mentions location)).map (·.name) = es.flatMap (·.references) := by
  rw [List.map_flatMap]
  refine List.flatMap_congr fun e _ => ?_
  rw [Expr.mentions, List.map_map]
  exact List.map_id _

theorem names_of_type (location : Option Location) (type : TypeRef) :
    (type.mentions location).map (·.name) = type.declared?.toList := by
  rw [TypeRef.mentions, List.map_map]
  exact List.map_id _

section
variable (c)

/-- A part mentions its own names before what its expressions refer to. -/
theorem names_of_slot (type : TypeRef) (initializer : Option Expr) :
    (c.slotMentions type initializer).map (·.name) =
      type.declared?.toList ++ initializer.toList.flatMap (·.references) := by
  rw [slotMentions, List.map_append, names_of_type, names_of_mentions]

theorem names_of_method (m : Method) :
    (c.methodMentions m).map (·.name) = [] ++ (bodyExprs m.body).flatMap (·.references) :=
  names_of_mentions _ (bodyExprs m.body)

theorem names_of_event (e : EventBinding) : (c.eventMentions e).map (·.name) =
    e.eventType.toList.flatMap (·.declared?.toList) ++ (bodyExprs e.body).flatMap (·.references) := by
  rw [eventMentions, List.map_append, names_of_mentions, List.map_flatMap]
  simp only [names_of_type]

theorem names_of_node (t : Tree) (m : Node) : (c.nodeMentions t m).map (·.name) =
    (if m.key = t.root then [] else [m.target]) ++ m.exprs.flatMap (·.references) := by
  rw [nodeMentions, List.map_append, names_of_mentions]
  split <;> rfl

end

theorem mem_tree_mentions :
    n ∈ (c.tree.toList.flatMap fun t => t.reachable.flatMap (c.nodeMentions t)).map (·.name) ↔
      n ∈ c.tree.toList.flatMap (·.targets) ∨ ∃ e ∈ c.nodes.flatMap (·.exprs), n ∈ e.references := by
  cases ht : c.tree with
  | none => simp [nodes, ht]
  | some t =>
    simpa [nodes, ht, Tree.targets] using mem_flatMap_mentions (n := n) t.reachable (c.names_of_node t)

/-- A class mentions what its parts name and what its expressions refer to. -/
theorem mem_mentions :
    n ∈ c.mentions.map (·.name) ↔ n ∈ c.named ∨ ∃ e ∈ c.exprs, n ∈ e.references := by
  have hbases : ((c.base.toList ++ c.interfaces).map fun n => (⟨n, c.location⟩ : Mention)).map (·.name) =
      c.base.toList ++ c.interfaces := by
    rw [List.map_map]
    exact List.map_id _
  have hfields := mem_flatMap_mentions (n := n) c.fields fun f => c.names_of_slot f.type f.initializer
  have haccessors := mem_flatMap_mentions (n := n) c.accessors fun a => c.names_of_slot a.type a.initializer
  have hmethods := mem_flatMap_mentions (n := n) c.methods c.names_of_method
  have hevents := mem_flatMap_mentions (n := n) c.events c.names_of_event
  have htree := mem_tree_mentions (c := c) (n := n)
  rw [mentions, named, slotNames, exprs, List.filterMap_eq_flatMap_toList, List.filterMap_eq_flatMap_toList]
  simp only [List.map_append] at hfields haccessors hmethods hevents htree hbases ⊢
  have hnone : n ∉ c.methods.flatMap fun _ => ([] : List Name) := by
    simp
  simp only [List.mem_append, hbases, hfields, haccessors, hmethods, hevents, htree, hnone, false_or,
    or_and_right, exists_or]
  apply Iff.of_eq
  ac_rfl

/-! ### Dependencies -/

variable {t : SymbolTable} {o : Options} {needed : NameSet}

/-- A class can be resolved when everything that it mentions besides itself is registered. -/
def Resolved (c : ClassDecl) (t : SymbolTable) : Prop :=
  ∀ n ∈ c.mentions.map (·.name), n ≠ c.name → t.contains n = true

/-- What a class needs, of what it mentions and of the support classes. -/
def Needs (c : ClassDecl) (t : SymbolTable) (o : Options) (n : Name) : Prop :=
  n ≠ c.name ∧ (n ∈ c.mentions.map (·.name) ∨ n ∈ c.supportNames o ∧ t.contains n = true)

/-- The dependencies are what the class needs, where it can be resolved. -/
theorem dependencies_eq_ok :
    c.dependencies t o = .ok needed ↔ c.Resolved t ∧ ∀ n, n ∈ needed ↔ c.Needs t o n := by
  unfold dependencies
  cases hfind : c.mentions.find? fun m => m.name ≠ c.name && !t.contains m.name with
  | some m =>
    have hm : m.name ≠ c.name ∧ t.contains m.name = false := by simpa using List.find?_some hfind
    constructor
    · intro h
      cases h
    · intro hright
      obtain ⟨hresolved, -⟩ := hright
      have hcontains := hresolved m.name (List.mem_map_of_mem (List.mem_of_find?_eq_some hfind)) hm.1
      rw [hm.2] at hcontains
      cases hcontains
  | none =>
    have hresolved : c.Resolved t := by
      intro n hn hne
      obtain ⟨m, hm, rfl⟩ := List.mem_map.mp hn
      simpa [hne] using List.find?_eq_none.mp hfind m hm
    have hmem (n : Name) : n ∈ NameSet.ofList
        ((c.mentions.map (·.name) ++ (c.supportNames o).filter t.contains).filter (· ≠ c.name)) ↔
          c.Needs t o n := by
      rw [NameSet.mem_ofList, List.mem_filter, List.mem_append, List.mem_filter, decide_eq_true_iff]
      exact And.comm
    constructor
    · intro h
      obtain rfl := Except.ok.inj h
      exact ⟨hresolved, hmem⟩
    · intro hright
      obtain ⟨-, h⟩ := hright
      exact congrArg Except.ok (NameSet.ext fun n => (hmem n).trans (h n).symm)

/-- Every dependency is registered. -/
theorem contains_of_mem_dependencies (h : c.dependencies t o = .ok needed) (hn : n ∈ needed) :
    t.contains n = true := by
  obtain ⟨hresolved, hmem⟩ := dependencies_eq_ok.mp h
  obtain ⟨hne, hmention | ⟨-, hcontains⟩⟩ := (hmem n).mp hn
  · exact hresolved n hmention hne
  · exact hcontains

/-! ### The written part -/

/-- The part of a declaration that code is made of. -/
def written (c : ClassDecl) : ClassDecl :=
  match c.kind with
  | .concrete => { c with tree := c.tree.map (·.settled) }
  | .interface => { c with
      base := none
      fields := []
      accessors := []
      methods := c.methods.map fun m => { m with body := [] }
      events := []
      tree := none }

theorem written_concrete (h : c.kind = .concrete) :
    c.written = { c with tree := c.tree.map (·.settled) } := by
  rw [written, h]

theorem tree_written (h : c.kind = .concrete) : c.written.tree = c.tree.map (·.settled) := by
  rw [written_concrete h]

theorem name_written : c.written.name = c.name := by
  unfold written
  split <;> rfl

/-- An interface is written with nothing but the interfaces that it extends. -/
theorem named_written_interface (h : c.kind = .interface) : c.written.named = c.interfaces := by
  rw [written, h]
  simp [named, slotNames]

theorem exprs_written_interface (h : c.kind = .interface) : c.written.exprs = [] := by
  rw [written, h]
  simp [exprs, nodes, bodyExprs]

/-- Nothing is written that the declaration does not name. -/
theorem named_written_subset (c : ClassDecl) : c.written.named ⊆ c.named := by
  intro n hn
  cases hkind : c.kind with
  | interface =>
    rw [named_written_interface hkind] at hn
    simp [named, slotNames, hn]
  | concrete =>
    rw [written_concrete hkind] at hn
    rcases List.mem_append.mp hn with hn | hn
    · exact List.mem_append_left _ hn
    · refine List.mem_append_right _ ?_
      obtain ⟨settled, hsettled, hn⟩ := List.mem_flatMap.mp hn
      obtain ⟨t, ht, rfl⟩ := Option.map_eq_some_iff.mp (Option.mem_toList.mp hsettled)
      exact List.mem_flatMap.mpr ⟨t, Option.mem_toList.mpr ht, t.targets_settled_subset hn⟩

theorem mem_nodes {m : Node} : m ∈ c.nodes ↔ ∃ t, c.tree = some t ∧ m ∈ t.reachable := by
  unfold nodes
  cases c.tree <;> simp

/-- The nodes that are written are nodes of the class, settled. -/
theorem exists_of_mem_nodes_written {m : Node} (hm : m ∈ c.written.nodes) :
    ∃ n ∈ c.nodes, ∃ isRoot, m = n.settled isRoot := by
  obtain ⟨settled, hsettled, hm⟩ := mem_nodes.mp hm
  cases hkind : c.kind with
  | interface =>
    rw [written, hkind] at hsettled
    cases hsettled
  | concrete =>
    rw [written_concrete hkind] at hsettled
    obtain ⟨t, ht, rfl⟩ := Option.map_eq_some_iff.mp hsettled
    obtain ⟨n, hn, rfl⟩ := Tree.exists_of_mem_reachable_settled hm
    exact ⟨n, mem_nodes.mpr ⟨t, ht, hn⟩, _, rfl⟩

/-- No expression is written that the declaration does not have. -/
theorem exprs_written_subset (c : ClassDecl) : c.written.exprs ⊆ c.exprs := by
  intro e he
  cases hkind : c.kind with
  | interface =>
    rw [exprs_written_interface hkind] at he
    exact absurd he List.not_mem_nil
  | concrete =>
    rw [written_concrete hkind] at he
    rcases List.mem_append.mp he with he | he
    · exact List.mem_append_left _ he
    · refine List.mem_append_right _ ?_
      obtain ⟨m, hm, he⟩ := List.mem_flatMap.mp he
      rw [← written_concrete hkind] at hm
      obtain ⟨n, hn, isRoot, rfl⟩ := exists_of_mem_nodes_written hm
      rw [Node.exprs_settled] at he
      exact List.mem_flatMap.mpr ⟨n, hn, he⟩

theorem mentions_written_subset (c : ClassDecl) :
    c.written.mentions.map (·.name) ⊆ c.mentions.map (·.name) := by
  intro n hn
  rcases mem_mentions.mp hn with hn | ⟨e, he, hn⟩
  · exact mem_mentions.mpr (.inl (c.named_written_subset hn))
  · exact mem_mentions.mpr (.inr ⟨e, c.exprs_written_subset he, hn⟩)

theorem accessors_written_subset (c : ClassDecl) : c.written.accessors ⊆ c.accessors := by
  unfold written
  split
  · exact List.Subset.refl _
  · exact List.nil_subset _

theorem hasBindableMembers_iff :
    c.hasBindableMembers = true ↔
      (∃ a ∈ c.accessors, a.bindable = true) ∨ ∃ m ∈ c.nodes, m.id.isSome = true := by
  unfold hasBindableMembers nodes
  cases c.tree <;> simp

theorem not_hasBindableMembers_written (h : c.kind = .interface) :
    ¬c.written.hasBindableMembers = true := by
  rw [hasBindableMembers_iff, written, h]
  simp [nodes]

theorem hasCast_iff : c.hasCast = true ↔ ∃ e ∈ c.exprs, e.hasCast = true := List.any_eq_true

theorem mem_supportNames :
    n ∈ c.supportNames o ↔
      c.hasBindableMembers = true ∧ n = o.changeEventClass ∨ c.hasCast = true ∧ n = o.languageHelper := by
  simp [supportNames]

/-- What is written calls no support class that the declaration does not. -/
theorem supportNames_written_subset (c : ClassDecl) (o : Options) :
    c.written.supportNames o ⊆ c.supportNames o := by
  have hcast : c.written.hasCast = true → c.hasCast = true := by
    intro h
    obtain ⟨e, he, hcast⟩ := hasCast_iff.mp h
    exact hasCast_iff.mpr ⟨e, c.exprs_written_subset he, hcast⟩
  have hbindable : c.written.hasBindableMembers = true → c.hasBindableMembers = true := by
    intro h
    rcases hasBindableMembers_iff.mp h with ⟨a, ha, hbindable⟩ | ⟨m, hm, hid⟩
    · exact hasBindableMembers_iff.mpr (.inl ⟨a, c.accessors_written_subset ha, hbindable⟩)
    · obtain ⟨n, hn, isRoot, rfl⟩ := exists_of_mem_nodes_written hm
      exact hasBindableMembers_iff.mpr (.inr ⟨n, hn, hid⟩)
  intro n hn
  exact mem_supportNames.mpr ((mem_supportNames.mp hn).imp (And.imp_left hbindable) (And.imp_left hcast))

/-- What the written part needs, the class needs. -/
theorem needs_of_written (h : c.written.Needs t o n) : c.Needs t o n := by
  obtain ⟨hne, hmention | ⟨hsupport, hregistered⟩⟩ := h
  · exact ⟨c.name_written ▸ hne, .inl (c.mentions_written_subset hmention)⟩
  · exact ⟨c.name_written ▸ hne, .inr ⟨c.supportNames_written_subset o hsupport, hregistered⟩⟩

/-- The written part of an interface needs the interfaces that it extends, and nothing else. -/
theorem needs_written_interface (h : c.kind = .interface) :
    c.written.Needs t o n ↔ n ≠ c.name ∧ n ∈ c.interfaces := by
  rw [Needs, name_written, mem_mentions, mem_supportNames, hasCast_iff, named_written_interface h,
    exprs_written_interface h]
  simp [not_hasBindableMembers_written h]

/-- The written part can be resolved where the class can. -/
theorem resolved_written (h : c.Resolved t) : c.written.Resolved t :=
  fun n hn hne => h n (c.mentions_written_subset hn) (c.name_written ▸ hne)

/-! ### Classes that are written entirely -/

/-- Settling the tree of the class loses no node. -/
def WritesNodes (c : ClassDecl) : Prop :=
  ∀ tree, c.tree = some tree → ∀ m ∈ tree.reachable,
    m.settled (m.key = tree.root) ∈ tree.settled.reachable

section
variable (hkind : c.kind = .concrete) (hnodes : c.WritesNodes)

include hkind hnodes

theorem exists_written_of_mem_nodes {m : Node} (hm : m ∈ c.nodes) :
    ∃ isRoot, m.settled isRoot ∈ c.written.nodes := by
  obtain ⟨tree, htree, hm⟩ := mem_nodes.mp hm
  refine ⟨_, mem_nodes.mpr ⟨tree.settled, ?_, hnodes tree htree m hm⟩⟩
  rw [tree_written hkind, htree]
  rfl

theorem named_subset_written : c.named ⊆ c.written.named := by
  intro n hn
  rw [written_concrete hkind]
  rcases List.mem_append.mp hn with hn | hn
  · exact List.mem_append_left _ hn
  · refine List.mem_append_right _ ?_
    obtain ⟨tree, htree, hn⟩ := List.mem_flatMap.mp hn
    have hsome := Option.mem_toList.mp htree
    obtain ⟨m, hm, hkey, rfl⟩ := Tree.mem_targets.mp hn
    have htargets : m.target ∈ tree.settled.targets :=
      Tree.mem_targets.mpr ⟨_, hnodes tree hsome m hm, hkey, rfl⟩
    refine List.mem_flatMap.mpr ⟨tree.settled, ?_, htargets⟩
    rw [hsome]
    exact List.mem_singleton_self _

theorem exprs_subset_written : c.exprs ⊆ c.written.exprs := by
  intro e he
  have hother : c.written.exprs = c.fields.filterMap (·.initializer) ++
      c.accessors.filterMap (·.initializer) ++ c.methods.flatMap (fun m => bodyExprs m.body) ++
      c.events.flatMap (fun e => bodyExprs e.body) ++ c.written.nodes.flatMap (·.exprs) := by
    rw [written_concrete hkind]
    rfl
  rw [hother]
  rcases List.mem_append.mp he with he | he
  · exact List.mem_append_left _ he
  · refine List.mem_append_right _ ?_
    obtain ⟨m, hm, he⟩ := List.mem_flatMap.mp he
    obtain ⟨isRoot, hm⟩ := exists_written_of_mem_nodes hkind hnodes hm
    exact List.mem_flatMap.mpr ⟨_, hm, m.exprs_settled isRoot ▸ he⟩

theorem hasBindableMembers_written (h : c.hasBindableMembers = true) :
    c.written.hasBindableMembers = true := by
  rcases hasBindableMembers_iff.mp h with ⟨a, ha, hbindable⟩ | ⟨m, hm, hid⟩
  · refine hasBindableMembers_iff.mpr (.inl ⟨a, ?_, hbindable⟩)
    rw [written_concrete hkind]
    exact ha
  · obtain ⟨isRoot, hm⟩ := exists_written_of_mem_nodes hkind hnodes hm
    exact hasBindableMembers_iff.mpr (.inr ⟨_, hm, hid⟩)

/-- What the class needs, its written part needs. -/
theorem needs_written (hn : c.Needs t o n) : c.written.Needs t o n := by
  obtain ⟨hne, hn⟩ := hn
  refine ⟨by rwa [name_written], ?_⟩
  rw [mem_mentions, mem_supportNames, hasCast_iff] at hn ⊢
  have hnamed := named_subset_written hkind hnodes
  have hexprs := exprs_subset_written hkind hnodes
  rcases hn with (hn | ⟨e, he, hn⟩) | ⟨⟨hbindable, hn⟩ | ⟨⟨e, he, hcast⟩, hn⟩, hregistered⟩
  · exact .inl (.inl (hnamed hn))
  · exact .inl (.inr ⟨e, hexprs he, hn⟩)
  · exact .inr ⟨.inl ⟨hasBindableMembers_written hkind hnodes hbindable, hn⟩, hregistered⟩
  · exact .inr ⟨.inr ⟨⟨e, hexprs he, hcast⟩, hn⟩, hregistered⟩

end

end ClassDecl

end Lowering
