import Lowering.Proofs.Code.References
import Lowering.Proofs.Output.Written

/-! The stages of emitting a class.

A class is looked up, what it needs is collected, its tree is linearized, and its accessor pairs and
its handlers are laid down. The first of these stages that fails decides how the class fails, and
a class that passes them all is emitted (`emitted_or_first_failure`): whatever its code refers to is
mentioned by the declaration, and so it was found to be registered when the dependencies were
collected. -/
namespace Lowering

namespace ClassDecl

variable {c : ClassDecl} {t : SymbolTable} {o : Options} {p : ClassPlan} {e : Error}

/-! ### Failures of stages -/

/-- What the first stage that fails leaves, where one does. -/
inductive FirstFailure (c : ClassDecl) (t : SymbolTable) (o : Options) : Error → Prop
  | unregistered (h : t.contains c.name = false) :
    FirstFailure c t o (.unresolvedSymbol c.name c.name c.location)
  | dependencies {e : Error} (hregistered : t.contains c.name = true)
    (h : c.dependencies t o = .error e) : FirstFailure c t o e
  | tree {e : Error} {needed : NameSet} (hregistered : t.contains c.name = true)
    (hneeded : c.dependencies t o = .ok needed) (h : c.linearize = .error e) : FirstFailure c t o e
  | accessors {e : Error} {needed : NameSet} {l : Option Linearized}
    (hregistered : t.contains c.name = true) (hneeded : c.dependencies t o = .ok needed)
    (hl : c.linearize = .ok l) (h : c.accessorPairs o l = .error e) : FirstFailure c t o e
  | handlers {e : Error} {needed : NameSet} {l : Option Linearized} {pairs : List AccessorPair}
    (hregistered : t.contains c.name = true) (hneeded : c.dependencies t o = .ok needed)
    (hl : c.linearize = .ok l) (hpairs : c.accessorPairs o l = .ok pairs)
    (h : c.eventHandlers l = .error e) : FirstFailure c t o e

/-- Every stage passes. -/
def Passes (c : ClassDecl) (t : SymbolTable) (o : Options) : Prop :=
  t.contains c.name = true ∧ (∃ needed, c.dependencies t o = .ok needed) ∧
    ∃ l, c.linearize = .ok l ∧ (∃ pairs, c.accessorPairs o l = .ok pairs) ∧
      ∃ handlers, c.eventHandlers l = .ok handlers

/-- A class is found when it is registered. -/
theorem lookup_eq_ok :
    (∃ s, (t.resolve c.name c.name).mapError (·.orLocation c.location) = .ok s) ↔
      t.contains c.name = true := by
  cases hfind : t.find? c.name <;>
    simp [SymbolTable.contains, SymbolTable.resolve, hfind, Except.mapError]

/-- One that is not is reported at its own place. -/
theorem lookup_eq_error :
    (t.resolve c.name c.name).mapError (·.orLocation c.location) = .error e ↔
      t.contains c.name = false ∧ e = .unresolvedSymbol c.name c.name c.location := by
  cases hfind : t.find? c.name <;>
    simp [SymbolTable.contains, SymbolTable.resolve, hfind, Except.mapError, Error.orLocation, eq_comm]

theorem plan_eq_error : c.plan t o = .error e ↔ c.FirstFailure t o e := by
  constructor
  · intro h
    obtain h | ⟨s, hs, h⟩ := bind_eq_error.mp h
    · obtain ⟨hunregistered, rfl⟩ := lookup_eq_error.mp h
      exact .unregistered hunregistered
    have hregistered := lookup_eq_ok.mp ⟨s, hs⟩
    obtain h | ⟨needed, hneeded, h⟩ := bind_eq_error.mp h
    · exact .dependencies hregistered h
    obtain h | ⟨l, hl, h⟩ := bind_eq_error.mp h
    · exact .tree hregistered hneeded h
    obtain h | ⟨pairs, hpairs, h⟩ := bind_eq_error.mp h
    · exact .accessors hregistered hneeded hl h
    obtain h | ⟨handlers, -, h⟩ := bind_eq_error.mp h
    · exact .handlers hregistered hneeded hl hpairs h
    · cases h
  · intro h
    cases h with
    | unregistered h => exact bind_eq_error.mpr (.inl (lookup_eq_error.mpr ⟨h, rfl⟩))
    | dependencies hregistered h =>
      obtain ⟨s, hs⟩ := lookup_eq_ok.mpr hregistered
      exact bind_eq_error.mpr (.inr ⟨s, hs, bind_eq_error.mpr (.inl h)⟩)
    | tree hregistered hneeded h =>
      obtain ⟨s, hs⟩ := lookup_eq_ok.mpr hregistered
      exact bind_eq_error.mpr (.inr ⟨s, hs, bind_eq_error.mpr (.inr ⟨_, hneeded,
        bind_eq_error.mpr (.inl h)⟩)⟩)
    | accessors hregistered hneeded hl h =>
      obtain ⟨s, hs⟩ := lookup_eq_ok.mpr hregistered
      exact bind_eq_error.mpr (.inr ⟨s, hs, bind_eq_error.mpr (.inr ⟨_, hneeded,
        bind_eq_error.mpr (.inr ⟨_, hl, bind_eq_error.mpr (.inl h)⟩)⟩)⟩)
    | handlers hregistered hneeded hl hpairs h =>
      obtain ⟨s, hs⟩ := lookup_eq_ok.mpr hregistered
      exact bind_eq_error.mpr (.inr ⟨s, hs, bind_eq_error.mpr (.inr ⟨_, hneeded,
        bind_eq_error.mpr (.inr ⟨_, hl, bind_eq_error.mpr (.inr ⟨_, hpairs,
          bind_eq_error.mpr (.inl h)⟩)⟩)⟩)⟩)

/-- A class is planned when every stage passes. -/
theorem exists_plan : (∃ p, c.plan t o = .ok p) ↔ c.Passes t o := by
  constructor
  · intro h
    obtain ⟨p, h⟩ := h
    obtain ⟨s, hs, h⟩ := bind_eq_ok.mp h
    obtain ⟨needed, hneeded, h⟩ := bind_eq_ok.mp h
    obtain ⟨l, hl, h⟩ := bind_eq_ok.mp h
    obtain ⟨pairs, hpairs, h⟩ := bind_eq_ok.mp h
    obtain ⟨handlers, hhandlers, -⟩ := bind_eq_ok.mp h
    exact ⟨lookup_eq_ok.mp ⟨s, hs⟩, ⟨needed, hneeded⟩, l, hl, ⟨pairs, hpairs⟩, handlers, hhandlers⟩
  · intro h
    obtain ⟨hregistered, ⟨needed, hneeded⟩, l, hl, ⟨pairs, hpairs⟩, handlers, hhandlers⟩ := h
    obtain ⟨s, hs⟩ := lookup_eq_ok.mpr hregistered
    exact ⟨_, bind_eq_ok.mpr ⟨s, hs, bind_eq_ok.mpr ⟨needed, hneeded, bind_eq_ok.mpr ⟨l, hl,
      bind_eq_ok.mpr ⟨pairs, hpairs, bind_eq_ok.mpr ⟨handlers, hhandlers, rfl⟩⟩⟩⟩⟩⟩

/-! ### Writing -/

/-- The expressions in the code of a class that is planned are among those of its declaration. -/
theorem Planned.mem_exprs_of_references (h : c.Planned t o p) {n : Name} (hn : n ∈ p.layout.references) :
    ∃ e ∈ c.exprs, n ∈ e.references := by
  have huse := Layout.mem_references.mp hn
  have hself : Piece.name .reference n ≠ p.self := by simp [ClassPlan.self]
  have hquoted : Piece.name .reference n ≠ .quoted p.decl.name := by simp
  have hkind : p.decl.kind = c.kind := by rw [h.decl]
  cases hc : c.kind with
  | interface =>
    rw [ClassPlan.shows_layout_interface (hkind.trans hc) _ hself hquoted] at huse
    simp at huse
  | concrete =>
    rw [ClassPlan.shows_layout_concrete (hkind.trans hc) _ hself hquoted] at huse
    obtain ⟨e, he, huse⟩ : ∃ e ∈ p.codeExprs, .name .reference n ∈ Code.uses (e.code p.scope) := by
      simpa [exprUses] using huse
    have hn : n ∈ e.references := by simpa [Expr.mem_uses_code, Expr.uses, Expr.mem_usesOf] using huse
    exact ⟨e, c.exprs_written_subset ((h.mem_codeExprs hc).mp he), hn⟩

/-- Whatever the code of a class refers to is registered, since the class mentions it. -/
theorem Planned.contains_of_mem_references (h : c.Planned t o p) {n : Name}
    (hn : n ∈ p.layout.references) : t.contains n = true := by
  by_cases hself : n = c.name
  · rw [hself, SymbolTable.contains, h.symbol]
    rfl
  · obtain ⟨hresolved, -⟩ := dependencies_eq_ok.mp h.dependencies
    exact hresolved n (mem_mentions.mpr (.inr (h.mem_exprs_of_references hn))) hself

/-- So nothing fails when the text is written. -/
theorem emit_eq (c : ClassDecl) (t : SymbolTable) (o : Options) :
    c.emit t o = (c.plan t o).map fun p => ⟨p, p.symbol.outputName, p.layout.text t.spelling 0⟩ := by
  unfold emit
  cases hp : c.plan t o with
  | error e => rfl
  | ok p =>
    have hcheck : t.checkReferences c.name p.layout.references = .ok () :=
      SymbolTable.checkReferences_eq_ok.mpr fun n hn => (plan_eq_ok hp).contains_of_mem_references hn
    show (t.checkReferences c.name p.layout.references >>= _) >>= _ = _
    rw [hcheck]
    rfl

end ClassDecl

/-- **A class is emitted exactly when it is registered and its dependencies, its tree, its accessor
pairs and its handlers are in order, and else fails as the first of these stages does. Writing the
text of what passes them adds no failure.** -/
theorem emitted_or_first_failure (c : ClassDecl) (t : SymbolTable) (o : Options) :
    ((∃ out, c.emit t o = .ok out) ↔ c.Passes t o) ∧
      (∀ e, c.emit t o = .error e ↔ c.FirstFailure t o e) ∧
      c.emit t o = (c.plan t o).map fun p => ⟨p, p.symbol.outputName, p.layout.text t.spelling 0⟩ := by
  refine ⟨?_, fun e => ?_, c.emit_eq t o⟩
  · rw [c.emit_eq, ← ClassDecl.exists_plan]
    simp only [map_eq_ok]
    exact ⟨fun ⟨out, p, hp, _⟩ => ⟨p, hp⟩, fun ⟨p, hp⟩ => ⟨_, p, hp, rfl⟩⟩
  · rw [c.emit_eq, map_eq_error, ClassDecl.plan_eq_error]

end Lowering
