import Lowering.Proofs.Compilation.InOrder
import Lowering.Proofs.Name.Bytes
import Lowering.Proofs.Output.Loading

/-! What a unit requires.

A unit requires the dependencies of its classes without what its module owns, in the order of the
bytes of their names (`requires_exactly_unowned`). A module owns its classes and also its own name,
which the unit provides, even if no class of the module is called so (`annex_module_owned`). -/
namespace Lowering

/-- The unit requires the identifiers of exactly the names that are `needed`, each once, in the order
of the names' bytes. -/
def LoadUnit.RequiresExactly (u : LoadUnit) (t : SymbolTable) (needed : Name → Prop) : Prop :=
  ∃ names : List Name, u.requires.map some = names.map t.outputName? ∧
    names.Pairwise (fun a b => a.bytes < b.bytes) ∧ ∀ n, n ∈ names ↔ needed n

theorem LoadUnit.RequiresExactly.outputName?_mem {u : LoadUnit} {t : SymbolTable} {needed : Name → Prop}
    (h : u.RequiresExactly t needed) {n : Name} (hn : needed n) : t.outputName? n ∈ u.requires.map some := by
  obtain ⟨names, hrequires, -, hmem⟩ := h
  rw [hrequires]
  exact List.mem_map_of_mem ((hmem n).mpr hn)

/-- **The unit of a module is assembled from the code of its classes, and requires exactly what one
of them depends on and is neither the name of a class of the module nor the name of the module.** -/
theorem requires_exactly_unowned (m : Module) (t : SymbolTable) (o : Options) (outputs : List ClassOutput)
    (hclasses : m.classes ≠ []) (hbodies : m.classes.map (·.emit t o) = outputs.map .ok) :
    ∃ u, m.assemble t o outputs = .ok u ∧ u.RequiresExactly t fun n =>
      (∃ out ∈ outputs, n ∈ out.dependencies) ∧ (∀ c ∈ m.classes, c.name ≠ n) ∧ m.name ≠ n := by
  obtain ⟨u, hu⟩ := Module.assemble_ok (t := t) (o := o) (List.isEmpty_eq_false_iff.mpr hclasses)
    (Module.names_of_emitted hbodies)
  have hemit (out : ClassOutput) (hout : out ∈ outputs) : ∃ c ∈ m.classes, c.emit t o = .ok out :=
    List.mem_map.mp (hbodies ▸ List.mem_map_of_mem hout)
  refine ⟨u, hu, (m.required outputs).names, Module.requires_eq hu hemit, ?_, fun n => ?_⟩
  · exact (m.required outputs).ascending.imp Name.bytes_lt_iff.mpr
  · exact Module.mem_required.trans (and_congr_right' Module.not_mem_owned)

/-- A module that is not named after one of its classes: it declares a helper, whose base has the
name of the module, and a panel that keeps the helper. -/
def annex : Module where
  name := ⟨"app.Main"⟩
  classes := [{ name := ⟨"app.Helper"⟩, base := some ⟨"app.Main"⟩ },
    { name := ⟨"app.Panel"⟩, base := some ⟨"core.Panel"⟩
      fields := [{ name := "helper", type := .declared ⟨"app.Helper"⟩ }] }]

/-- Both bases are foreign. -/
def annexProgram : Program where
  foreign := [{ name := ⟨"app.Main"⟩ }, { name := ⟨"core.Panel"⟩ }]
  modules := [annex]

/-- The base of the panel is all that the annex requires. -/
theorem annex_requires_panel :
    ∃ t outputs, SymbolTable.ofProgram annexProgram .dotted = .ok t ∧ annex.classes ≠ [] ∧
      annex.classes.map (·.emit t {}) = outputs.map .ok ∧
      (annex.required outputs).names = [⟨"core.Panel"⟩] ∧
      ∃ u, annex.assemble t {} outputs = .ok u ∧ u.RequiresExactly t fun n =>
        (∃ out ∈ outputs, n ∈ out.dependencies) ∧ (∀ c ∈ annex.classes, c.name ≠ n) ∧ annex.name ≠ n := by
  refine ⟨_, [_, _], rfl, by decide, rfl, by decide +kernel, ?_⟩
  exact requires_exactly_unowned annex _ {} _ (by decide) rfl

/-- The base of the helper is a dependency and not a class of the annex, but it is not required. -/
theorem annex_module_owned :
    ∃ t outputs u, SymbolTable.ofProgram annexProgram .dotted = .ok t ∧
      annex.classes.map (·.emit t {}) = outputs.map .ok ∧ annex.assemble t {} outputs = .ok u ∧
      ¬u.RequiresExactly t fun n =>
        (∃ out ∈ outputs, n ∈ out.dependencies) ∧ ∀ c ∈ annex.classes, c.name ≠ n := by
  refine ⟨_, [_, _], _, rfl, rfl, rfl, fun hexactly => ?_⟩
  have hrequired := hexactly.outputName?_mem (n := ⟨"app.Main"⟩)
    ⟨⟨_, .head _, by decide +kernel⟩, by decide⟩
  revert hrequired
  decide +kernel

end Lowering
