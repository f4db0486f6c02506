import Lowering.Proofs.Linearize.Laws
import Lowering.Proofs.Output.Stages

/-! What a class can fail with.

One kind of failure is no fault of the source: a stage was given what no earlier stage
produces. It does not occur when a class is emitted (`emit_sourced`). The walk over the tree
only ever complains about the tree, which is a law of each of its steps and so of the whole
walk (`blames_law`), and the handlers of a linearized tree stand for event bindings that the
class has. -/
namespace Lowering

/-- The failure is a fault of the source. -/
def Error.Sourced (e : Error) : Prop := ∀ owner reason, e ≠ .internal owner reason

/-! ### Trees -/

namespace Markup

/-- From whatever state the walk fails, the source is at fault. -/
def Blames {α : Type} (x : Walk α) : Prop := ∀ p e, x.run p = .error e → e.Sourced

variable {m : Markup}

/-- A name that is taken, or looks synthesized, is the source's fault. -/
theorem bind_blames (n : Node) : Blames (m.bind n) := by
  intro p e h
  obtain ⟨id, -, -, rfl⟩ := bind_fails h
  exact nofun

theorem blames_law : m.Law Blames where
  pure _ _ _ h := by cases h
  bind hx hf p e h := by
    rw [StateT.run_bind] at h
    obtain h | ⟨r, -, h⟩ := bind_eq_error.mp h
    · exact hx p e h
    · exact hf r.1 r.2 e h
  throw he _ _ h := by
    obtain rfl := Except.error.inj h
    exact he
  get _ _ h := by cases h
  finish _ _ _ h := by cases h
  identity := bind_blames

theorem checked_sourced {e : Error} (h : m.checked = .error e) : e.Sourced := by
  obtain ⟨-, n, rfl⟩ | ⟨-, rfl⟩ | ⟨root, -, -, rfl⟩ | ⟨event, -, -, rfl⟩ := checked_fails h <;> exact nofun

/-- A tree that is not linearized is at fault. -/
theorem linearize_sourced {e : Error} (h : m.linearize = .error e) : e.Sourced := by
  obtain h | ⟨root, -, h | ⟨i, q, -, event, -, -, rfl⟩⟩ := linearize_fails h
  · exact checked_sourced h
  · exact blames_law.visit_root root {} e h
  · exact nofun

end Markup

/-! ### Classes -/

namespace ClassDecl

variable {c : ClassDecl} {t : SymbolTable} {o : Options} {e : Error}

theorem eventHandlers_sourced {l : Option Linearized} (hl : c.linearize = .ok l)
    (h : c.eventHandlers l = .error e) : e.Sourced := by
  cases l with
  | none =>
    unfold eventHandlers at h
    dsimp only at h
    split at h
    · obtain rfl := Except.error.inj h
      exact nofun
    · cases h
  | some l =>
    have hall : c.eventHandlers (some l) = _ := mapM_eq_map (handlerAt_eq hl)
    rw [hall] at h
    cases h

theorem FirstFailure.sourced (h : c.FirstFailure t o e) : e.Sourced := by
  cases h with
  | unregistered => exact nofun
  | dependencies _ h =>
    unfold ClassDecl.dependencies at h
    split at h
    · obtain rfl := Except.error.inj h
      exact nofun
    · cases h
  | tree _ _ h =>
    unfold linearize at h
    split at h
    · exact Markup.linearize_sourced (map_eq_error.mp h)
    · cases h
  | accessors _ _ _ h =>
    unfold accessorPairs at h
    dsimp only at h
    split at h
    · obtain rfl := Except.error.inj h
      exact nofun
    · cases h
  | handlers _ _ hl _ h => exact eventHandlers_sourced hl h

/-- A class that is not emitted is at fault. -/
theorem emit_sourced (h : c.emit t o = .error e) : e.Sourced := by
  rw [c.emit_eq, map_eq_error] at h
  exact (plan_eq_error.mp h).sourced

end ClassDecl

end Lowering
