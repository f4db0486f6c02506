import Lowering.Proofs.Output.Plan
import Lowering.Proofs.Output.Uses

/-! What a class is written with.

The code of a class that is registered as it is declared uses, besides its own name and
the types in the signatures of its methods, what its written part mentions and the support
classes that this part calls, and nothing else (`uses_iff`). The written part of a class has the
dependencies of the class if no node is lost with earlier content sequences of the root
(`written_dependencies_eq`); that of an interface has those which are interfaces that it extends
(`interface_dependencies_iff`). -/
namespace Lowering

/-- The class is registered with its own declaration, wherever that stands. -/
def SymbolTable.Registers (t : SymbolTable) (c : ClassDecl) : Prop :=
  ∃ s, t.find? c.name = some s ∧ s.declaration.sameDefinition (.ofClass c) = true

namespace ClassDecl.Planned

variable {c : ClassDecl} {t : SymbolTable} {o : Options} {p : ClassPlan} (h : c.Planned t o p)

include h

/-- Metadata lists the declared interfaces. -/
theorem symbol_interfaces (hc : t.Registers c) : p.symbol.declaration.interfaces = c.interfaces := by
  obtain ⟨s, hs, hsame⟩ := hc
  obtain rfl := Option.some.inj (hs.symm.trans h.symbol)
  rw [Declaration.sameDefinition, beq_iff_eq] at hsame
  exact congrArg Declaration.interfaces hsame

/-! ### The tree -/

/-- A class is linearized when it has a tree. -/
theorem tree_cases :
    (p.linearized = none ∧ c.tree = none) ∨
      ∃ (m : Markup) (l : Linearized), p.linearized = some l ∧ c.tree = some m.tree ∧ m.Rendered l := by
  have hlinearized := h.linearized
  cases hl : p.linearized with
  | none =>
    rw [hl] at hlinearized
    exact .inl ⟨rfl, linearize_eq_none hlinearized⟩
  | some l =>
    rw [hl] at hlinearized
    obtain ⟨tree, htree, hrendered⟩ := linearize_eq_some hlinearized
    exact .inr ⟨_, l, rfl, htree, hrendered⟩

section
variable (hkind : c.kind = .concrete)

include hkind

theorem mem_tree_types {n : Name} :
    (n ∈ p.linearized.toList.flatMap fun l =>
      l.bindings.map (·.target) ++ (l.root.children.flatMap Instruction.flatten).map (·.target)) ↔
      n ∈ c.written.tree.toList.flatMap (·.targets) := by
  rcases h.tree_cases with ⟨hl, htree⟩ | ⟨m, l, hl, htree, hm⟩
  · rw [hl, tree_written hkind, htree]
    exact Iff.rfl
  · rw [hl, tree_written hkind, htree]
    simp only [Option.map_some, Option.toList_some, List.flatMap_singleton, List.mem_append, hm.mem_binding_targets,
      hm.mem_targets, or_self]

theorem mem_tree_exprs {e : Expr} :
    (e ∈ p.linearized.toList.flatMap fun l => l.root.flatten.flatMap (·.exprs)) ↔
      e ∈ c.written.nodes.flatMap (·.exprs) := by
  rcases h.tree_cases with ⟨hl, htree⟩ | ⟨m, l, hl, htree, hm⟩
  · rw [hl, nodes, tree_written hkind, htree]
    exact Iff.rfl
  · rw [hl, nodes, tree_written hkind, htree]
    simp only [Option.toList_some, List.flatMap_singleton]
    exact hm.mem_exprs

theorem exposed_iff :
    (∃ b, b ∈ (p.linearized.map (·.exposed)).getD []) ↔
      ∃ m ∈ c.written.nodes, m.id.isSome = true := by
  rcases h.tree_cases with ⟨hl, htree⟩ | ⟨m, l, hl, htree, hm⟩
  · rw [hl, nodes, tree_written hkind, htree]
    simp
  · rw [hl, nodes, tree_written hkind, htree]
    exact hm.exposed_iff

/-- The type of an exposed field is that of a node. -/
theorem exposed_target {b : BindingField} (hb : b ∈ (p.linearized.map (·.exposed)).getD []) :
    b.target ∈ c.written.tree.toList.flatMap (·.targets) := by
  rcases h.tree_cases with ⟨hl, htree⟩ | ⟨m, l, hl, htree, hm⟩
  · rw [hl] at hb
    exact absurd hb List.not_mem_nil
  · rw [hl] at hb
    rw [tree_written hkind, htree, Option.map_some, Option.toList_some, List.flatMap_singleton,
      ← hm.mem_binding_targets]
    exact List.mem_map_of_mem (List.mem_filter.mp hb).1

/-! ### Types -/

/-- The accessor pairs have the types of the accessors and of exposed fields, and announce
changes when some of them is bindable. -/
theorem mem_accessor_types {n : Name} :
    (n ∈ p.accessors.flatMap fun a =>
      a.type.declared?.toList ++ if a.bindable then [p.options.changeEventClass] else []) ↔
      n ∈ c.accessors.flatMap (·.type.declared?.toList) ∨
        (∃ b ∈ (p.linearized.map (·.exposed)).getD [], n = b.target) ∨
        c.written.hasBindableMembers = true ∧ n = o.changeEventClass := by
  have hdeclared : ((c.declaredPairs o).flatMap fun a =>
      a.type.declared?.toList ++ if a.bindable then [o.changeEventClass] else []) =
      c.accessors.flatMap fun a =>
        a.type.declared?.toList ++ if a.bindable then [o.changeEventClass] else [] :=
    List.flatMap_map ..
  have hidentity (exposed : List BindingField) : ((exposed.map AccessorPair.ofIdentity).flatMap fun a =>
      a.type.declared?.toList ++ if a.bindable then [o.changeEventClass] else []) =
      exposed.flatMap fun b => [b.target, o.changeEventClass] :=
    List.flatMap_map ..
  have hbindable : c.written.hasBindableMembers = true ↔
      (∃ a ∈ c.accessors, a.bindable = true) ∨ ∃ b, b ∈ (p.linearized.map (·.exposed)).getD [] := by
    rw [hasBindableMembers_iff, h.exposed_iff hkind, written_concrete hkind]
  rw [h.options, h.accessors, List.flatMap_append, hdeclared, hidentity, hbindable, List.mem_append]
  simp only [List.mem_flatMap, List.mem_append, List.mem_ite_nil_right, List.mem_cons,
    List.not_mem_nil, or_false]
  clear hdeclared hidentity hbindable
  grind

end

/-- Only the pairs of declared accessors have first values. -/
theorem declared_initializers :
    (p.accessors.filter (·.origin = .declared)).flatMap (·.initializer.toList) =
      c.accessors.flatMap (·.initializer.toList) := by
  have hdeclared : (c.declaredPairs o).filter (·.origin = .declared) = c.declaredPairs o := by
    refine List.filter_eq_self.mpr fun a ha => ?_
    obtain ⟨accessor, -, rfl⟩ := List.mem_map.mp ha
    rfl
  have hidentity (exposed : List BindingField) :
      (exposed.map AccessorPair.ofIdentity).filter (·.origin = .declared) = [] := by
    refine List.filter_eq_nil_iff.mpr fun a ha => ?_
    obtain ⟨b, -, rfl⟩ := List.mem_map.mp ha
    exact Bool.false_ne_true
  rw [h.accessors, List.filter_append, hdeclared, hidentity, List.append_nil]
  exact List.flatMap_map ..

/-! ### Handlers -/

/-- What handlers have of their event bindings. -/
theorem handlers_flatMap {α : Type} (f : Option TypeRef → List Stmt → List α) :
    (p.handlers.flatMap fun handler => f handler.eventType handler.body) =
      c.events.flatMap fun e => f e.eventType e.body := by
  have hhandlers := congrArg (List.flatMap fun parts => f parts.1 parts.2)
    (eventHandlers_eq h.linearized h.handlers)
  rw [List.flatMap_map, List.flatMap_map] at hhandlers
  exact hhandlers

/-! ### The whole code -/

theorem mem_codeTypes (hc : t.Registers c) (hkind : c.kind = .concrete) {n : Name} :
    n ∈ p.codeTypes ↔
      n ∈ c.written.named ∨ c.written.hasBindableMembers = true ∧ n = o.changeEventClass := by
  have hslots : c.written.slotNames = c.slotNames := by
    rw [written_concrete hkind]
    rfl
  have hevents := h.handlers_flatMap fun type _ => type.toList.flatMap (·.declared?.toList)
  rw [ClassPlan.codeTypes, named, hslots, slotNames, h.decl, h.symbol_interfaces hc, hevents]
  simp only [List.mem_append, h.mem_tree_types hkind, h.mem_accessor_types hkind]
  have hexposed : (∃ b ∈ (p.linearized.map (·.exposed)).getD [], n = b.target) →
      n ∈ c.written.tree.toList.flatMap (·.targets) := by
    intro hright
    obtain ⟨b, hb, rfl⟩ := hright
    exact h.exposed_target hkind hb
  clear hslots hevents
  grind

theorem mem_codeExprs (hkind : c.kind = .concrete) {e : Expr} :
    e ∈ p.codeExprs ↔ e ∈ c.written.exprs := by
  have hevents := h.handlers_flatMap fun _ body => bodyExprs body
  rw [ClassPlan.codeExprs, h.decl, h.declared_initializers, hevents]
  simp only [List.mem_append, h.mem_tree_exprs hkind]
  rw [exprs, written_concrete hkind]
  simp only [List.mem_append, List.filterMap_eq_flatMap_toList]

/-- The code uses what the written part names, what its expressions use, and the class that
builds change notifications where the written part has bindable members; the types of
signatures are used as such. -/
theorem mem_uses (hc : t.Registers c) {x : Piece} (hself : x ≠ .name .support c.name)
    (hquoted : x ≠ .quoted c.name) :
    x ∈ p.layout.uses ↔
      (∃ n, x = .name .support n ∧
        (n ∈ c.written.named ∨ c.written.hasBindableMembers = true ∧ n = o.changeEventClass)) ∨
        (∃ n ∈ c.signatureNames, x = .name .signature n) ∨
        ∃ e ∈ c.written.exprs, x ∈ e.uses o.languageHelper := by
  have hself' : x ≠ p.self := by
    rw [ClassPlan.self, h.decl]
    exact hself
  have hquoted' : x ≠ .quoted p.decl.name := by
    rw [h.decl]
    exact hquoted
  have hscope : p.scope.languageHelper = o.languageHelper := by
    rw [ClassPlan.scope, h.options]
    rfl
  cases hkind : c.kind with
  | concrete =>
    rw [ClassPlan.shows_layout_concrete (by rw [h.decl, hkind]) x hself' hquoted']
    simp only [List.mem_map, h.mem_codeTypes hc hkind, h.decl, exprUses, List.mem_flatMap,
      h.mem_codeExprs hkind, Expr.mem_uses_code, hscope]
    grind
  | interface =>
    rw [ClassPlan.shows_layout_interface (by rw [h.decl, hkind]) x hself' hquoted', h.decl,
      h.symbol_interfaces hc]
    simp only [named_written_interface hkind, not_hasBindableMembers_written hkind,
      exprs_written_interface hkind, List.map_append, List.mem_append, List.mem_map, or_self, false_and,
      or_false, List.not_mem_nil, exists_false, exprUses_nil]
    grind

/-- **Besides itself and in signatures, a class names in its code exactly what its written
part mentions and the support classes that this part calls.** -/
theorem uses_iff (hc : t.Registers c) {n : Name} (hn : n ≠ c.name) :
    (∃ use, use ≠ .signature ∧ .name use n ∈ p.layout.uses) ↔
      n ∈ c.written.mentions.map (·.name) ∨ n ∈ c.written.supportNames o := by
  have hmem (use : NameUse) := h.mem_uses hc (x := .name use n) (by simp [hn]) (by simp)
  rw [mem_mentions, mem_supportNames, hasCast_iff]
  constructor
  · intro hright
    obtain ⟨use, huse, hx⟩ := hright
    rcases (hmem use).mp hx with ⟨m, heq, hm⟩ | ⟨m, -, heq⟩ | ⟨e, he, hx⟩
    · obtain ⟨rfl, rfl⟩ := Piece.name.inj heq
      exact hm.imp .inl .inl
    · exact absurd (Piece.name.inj heq).1 huse
    · rcases Expr.mem_usesOf.mp hx with ⟨m, hm, heq⟩ | ⟨hcast, heq⟩
      · obtain ⟨rfl, rfl⟩ := Piece.name.inj heq
        exact .inl (.inr ⟨e, he, hm⟩)
      · obtain ⟨rfl, rfl⟩ := Piece.name.inj heq
        exact .inr (.inr ⟨⟨e, he, hcast⟩, rfl⟩)
  · intro hright
    rcases hright with (hnamed | ⟨e, he, hn⟩) | ⟨hbindable, rfl⟩ | ⟨⟨e, he, hcast⟩, rfl⟩
    · exact ⟨.support, nofun, (hmem _).mpr (.inl ⟨n, rfl, .inl hnamed⟩)⟩
    · exact ⟨.reference, nofun,
        (hmem _).mpr (.inr (.inr ⟨e, he, Expr.mem_usesOf.mpr (.inl ⟨n, hn, rfl⟩)⟩))⟩
    · exact ⟨.support, nofun, (hmem _).mpr (.inl ⟨_, rfl, .inr ⟨hbindable, rfl⟩⟩)⟩
    · exact ⟨.support, nofun,
        (hmem _).mpr (.inr (.inr ⟨e, he, Expr.mem_usesOf.mpr (.inr ⟨hcast, rfl⟩)⟩))⟩

theorem mem_signatureNames_of_uses (hc : t.Registers c) {n : Name}
    (hx : .name .signature n ∈ p.layout.uses) : n ∈ c.signatureNames := by
  rcases (h.mem_uses hc (by simp) (by simp)).mp hx with ⟨m, heq, -⟩ | ⟨m, hm, heq⟩ | ⟨e, -, hx⟩
  · cases (Piece.name.inj heq).1
  · obtain ⟨-, rfl⟩ := Piece.name.inj heq
    exact hm
  · rcases Expr.mem_usesOf.mp hx with ⟨m, -, heq⟩ | ⟨-, heq⟩
    · cases (Piece.name.inj heq).1
    · cases (Piece.name.inj heq).1

/-- The only name in a string literal is that of the class. -/
theorem not_quoted (hc : t.Registers c) {n : Name} (hn : n ≠ c.name) : .quoted n ∉ p.layout.uses := by
  intro hx
  rcases (h.mem_uses hc (by simp) (by simp [hn])).mp hx with ⟨m, heq, -⟩ | ⟨m, -, heq⟩ | ⟨e, -, hx⟩
  · cases heq
  · cases heq
  · rcases Expr.mem_usesOf.mp hx with ⟨m, -, heq⟩ | ⟨-, heq⟩
    · cases heq
    · cases heq

/-! ### Declarations that are written entirely -/

/-- The written part depends on what the declaration depends on if it needs each of that. -/
theorem written_dependencies_eq_iff :
    c.written.dependencies t o = .ok p.dependencies ↔ ∀ n ∈ p.dependencies, c.written.Needs t o n := by
  obtain ⟨hresolved, hmem⟩ := dependencies_eq_ok.mp h.dependencies
  rw [dependencies_eq_ok, and_iff_right (resolved_written hresolved)]
  refine forall_congr' fun n => ⟨fun hsame => hsame.mp, fun hneeds => ⟨hneeds, fun hn => ?_⟩⟩
  exact (hmem n).mpr (needs_of_written hn)

/-- A class whose tree loses nothing by being settled is written entirely: its written part
needs what it needs itself. -/
theorem written_dependencies_eq (hkind : c.kind = .concrete)
    (hdropped : ∀ tree, c.tree = some tree → ∀ k ∈ tree.dropped, (tree.get? k).isSome →
      tree.settled.LeadsTo tree.root k) :
    c.written.dependencies t o = .ok p.dependencies := by
  have hnodes : c.WritesNodes := by
    intro tree htree m hm
    rcases h.tree_cases with ⟨-, hnone⟩ | ⟨markup, l, -, hsome, hrendered⟩
    · rw [hnone] at htree
      cases htree
    · obtain rfl := Option.some.inj (hsome.symm.trans htree)
      exact hrendered.mem_reachable_settled (hdropped _ hsome) hm
  obtain ⟨-, hmem⟩ := dependencies_eq_ok.mp h.dependencies
  exact h.written_dependencies_eq_iff.mpr fun n hn => needs_written hkind hnodes ((hmem n).mp hn)

/-- An interface is written entirely if it depends on nothing but interfaces that it extends. -/
theorem interface_dependencies_iff (hkind : c.kind = .interface) :
    c.written.dependencies t o = .ok p.dependencies ↔ ∀ n ∈ p.dependencies, n ∈ c.interfaces := by
  obtain ⟨-, hmem⟩ := dependencies_eq_ok.mp h.dependencies
  refine h.written_dependencies_eq_iff.trans (forall₂_congr fun n hn => ?_)
  rw [needs_written_interface hkind, and_iff_right ((hmem n).mp hn).1]

end ClassDecl.Planned

end Lowering
