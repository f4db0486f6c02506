import Lowering.Proofs.Compilation.Shares
import Lowering.Proofs.Output.Requirements
import Lowering.Proofs.Symbol.Registering

/-! What a loader can satisfy.

A unit provides the name of its module alone, while what it requires are the classes that
its code needs. Each of them is declared by the program: as foreign, or as a class of one of
its modules, whose unit is part of the result. So a requirement can be satisfied unless it is
a class that no module is named after (`requires_satisfied`), and such a class is required
where another module needs it (`workshop_helper_unprovided`). -/
namespace Lowering

/-! ### Declared names -/

namespace SymbolTable

variable {p : Program} {style : NameStyle} {t : SymbolTable} {n : Name}

/-- What the table of a program knows is declared by the program. -/
theorem declared_of_contains (h : ofProgram p style = .ok t) (hn : t.contains n = true) :
    ∃ d ∈ p.declarations, d.name = n := by
  obtain ⟨d, hd, hname⟩ := Registry.exists_of_contains (freeze_of_ofProgram h).2 hn
  exact ⟨d, Registry.mem_of_mem_registerAll hd, hname⟩

/-- What a program declares is known to its table. -/
theorem contains_of_declared (h : ofProgram p style = .ok t) {d : Declaration} (hd : d ∈ p.declarations) :
    t.contains d.name = true := by
  obtain ⟨e, he⟩ : ∃ e, (Registry.empty.registerAll p.declarations).1.find? d.name = some e := by
    rw [Registry.find?_registerAll]
    exact Option.isSome_iff_exists.mp (List.find?_isSome.mpr ⟨d, hd, decide_eq_true rfl⟩)
  obtain ⟨hmem, hname⟩ := Registry.find?_eq_some.mp he
  exact hname ▸ Registry.contains_of_freeze (freeze_of_ofProgram h).2 hmem

theorem outputName?_eq_spelling (hn : t.contains n = true) : t.outputName? n = some (t.spelling n) := by
  obtain ⟨s, hs⟩ := Option.isSome_iff_exists.mp hn
  rw [spelling_of_find? hs, outputName?, hs]
  rfl

end SymbolTable

/-! ### Compiled modules -/

namespace Module

variable {m : Module} {t : SymbolTable} {o : Options} {u : LoadUnit}

/-- A module that does not compile says why. -/
theorem compile_error_ne_nil {errors : List Error} (h : m.compile t o = .error errors) : errors ≠ [] := by
  unfold compile conclude at h
  split at h
  · cases hassemble : m.assemble t o (successes (m.emitClasses t o)) with
    | ok u =>
      rw [hassemble] at h
      cases h
    | error e =>
      rw [hassemble] at h
      obtain rfl := Except.error.inj h
      exact List.cons_ne_nil e []
  next hfailures =>
    obtain rfl := Except.error.inj h
    exact hfailures

/-- A unit has its name and its place from its module. -/
theorem assemble_eq_ok {outputs : List ClassOutput} (h : m.assemble t o outputs = .ok u) :
    u.module = m.name ∧ u.provide = t.spelling m.name ∧ u.path = m.name.outputPath ∧
      u.requires = (m.required outputs).names.map t.spelling := by
  unfold assemble at h
  split at h
  · cases h
  · split at h
    · cases h
    · obtain rfl := Except.ok.inj h
      dsimp only
      exact ⟨rfl, rfl, rfl, rfl⟩

/-- A unit is that of its module, made from the code of the module's classes. -/
theorem compile_eq_ok (h : m.compile t o = .ok u) :
    ∃ outputs, (∀ out ∈ outputs, ∃ c ∈ m.classes, c.emit t o = .ok out) ∧
      u.provide = t.spelling m.name ∧ u.requires = (m.required outputs).names.map t.spelling := by
  unfold compile conclude at h
  split at h
  next =>
    refine ⟨successes (m.emitClasses t o), fun out hout => ?_, ?_⟩
    · obtain ⟨c, hc, hemit⟩ := List.mem_map.mp (mem_successes.mp hout)
      exact ⟨c, hc, hemit⟩
    · obtain ⟨-, hprovide, -, hrequires⟩ := assemble_eq_ok (mapError_eq_ok.mp h)
      exact ⟨hprovide, hrequires⟩
  next => cases h

theorem not_mem_owned {n : Name} : n ∉ m.owned ↔ (∀ c ∈ m.classes, c.name ≠ n) ∧ m.name ≠ n := by
  simp [owned, eq_comm]

/-- The dependencies of all classes, without what the module owns, are required. -/
theorem mem_required {outputs : List ClassOutput} {n : Name} :
    n ∈ m.required outputs ↔ (∃ out ∈ outputs, n ∈ out.dependencies) ∧ n ∉ m.owned := by
  rw [required, NameSet.mem_filter, NameSet.mem_ofList, List.mem_flatMap, Bool.not_eq_true',
    decide_eq_false_iff_not]
  rfl

/-- The code of classes needs known names only. -/
theorem contains_of_mem_required {outputs : List ClassOutput}
    (hemit : ∀ out ∈ outputs, ∃ c ∈ m.classes, c.emit t o = .ok out) {n : Name}
    (hn : n ∈ m.required outputs) : t.contains n = true := by
  obtain ⟨⟨out, hout, hn⟩, -⟩ := mem_required.mp hn
  obtain ⟨c, -, hc⟩ := hemit out hout
  obtain ⟨plan, hplan, -, rfl⟩ := ClassDecl.emit_eq_ok.mp hc
  exact ClassDecl.contains_of_mem_dependencies (ClassDecl.plan_eq_ok hplan).dependencies hn

/-- What a unit requires are the identifiers of what its classes need. -/
theorem requires_eq {outputs : List ClassOutput} (h : m.assemble t o outputs = .ok u)
    (hemit : ∀ out ∈ outputs, ∃ c ∈ m.classes, c.emit t o = .ok out) :
    u.requires.map some = (m.required outputs).names.map t.outputName? := by
  obtain ⟨-, -, -, hrequires⟩ := assemble_eq_ok h
  rw [hrequires, List.map_map]
  exact List.map_congr_left fun n hn =>
    (SymbolTable.outputName?_eq_spelling (contains_of_mem_required hemit hn)).symm

/-- What a unit requires is the identifier of a known name that its module does not declare. -/
theorem exists_of_mem_requires (h : m.compile t o = .ok u) {i : String} (hi : i ∈ u.requires) :
    ∃ n, t.contains n = true ∧ n ∉ m.owned ∧ t.outputName? n = some i := by
  obtain ⟨outputs, hemit, -, hrequires⟩ := compile_eq_ok h
  rw [hrequires] at hi
  obtain ⟨n, hn, rfl⟩ := List.mem_map.mp hi
  have hcontains := contains_of_mem_required hemit hn
  exact ⟨n, hcontains, (mem_required.mp hn).2, SymbolTable.outputName?_eq_spelling hcontains⟩

end Module

/-! ### Compiled programs -/

/-- The units of a program are those of its modules, each of which has one. -/
structure Program.Compiled (p : Program) (o : Options) (r : Compilation) : Prop where
  table : SymbolTable.ofProgram p o.nameStyle = .ok r.table
  module_of : ∀ u ∈ r.units, ∃ m ∈ p.modules, m.compile r.table o = .ok u
  unit_of : ∀ m ∈ p.modules, ∃ u ∈ r.units, m.compile r.table o = .ok u

theorem Program.compile_eq_ok {p : Program} {o : Options} {cancelled : Bool} {r : Compilation}
    (h : p.compile o cancelled = .ok r) : p.Compiled o r := by
  obtain ⟨r', hrun, h⟩ := bind_eq_ok.mp h
  obtain ⟨t, htable, rfl⟩ := run_eq_ok hrun
  split at h
  next herrors =>
    obtain rfl := Except.ok.inj h
    refine ⟨htable, fun u hu => ?_, fun m hm => ?_⟩
    · obtain ⟨m, hm, hcompile⟩ := List.mem_map.mp (mem_successes.mp hu)
      exact ⟨m, hm, hcompile⟩
    · cases hcompile : m.compile t o with
      | ok u => exact ⟨u, mem_successes.mpr (hcompile ▸ List.mem_map_of_mem hm), hcompile⟩
      | error errors =>
        have hfailed : errors ∈ failures (p.modules.map fun m => m.compile t o) :=
          mem_failures.mpr (hcompile ▸ List.mem_map_of_mem hm)
        exact absurd (List.flatten_eq_nil_iff.mp herrors errors hfailed) (Module.compile_error_ne_nil hcompile)
  next => cases h

/-- The name of a class of the program that none of its modules is named after. -/
structure Program.Secondary (p : Program) (n : Name) : Prop where
  declared : ∃ c ∈ p.classes, c.name = n
  unnamed : ∀ m ∈ p.modules, m.name ≠ n

/-- **Whatever a unit requires is foreign, provided by a unit of the same run, or a class of
another module that no module is named after.** -/
theorem requires_satisfied (p : Program) (o : Options) (cancelled : Bool) (r : Compilation)
    (h : p.compile o cancelled = .ok r) :
    ∀ u ∈ r.units, ∃ m ∈ p.modules, m.compile r.table o = .ok u ∧ ∀ i ∈ u.requires,
      (∃ d ∈ p.foreign, r.table.outputName? d.name = some i) ∨ (∃ v ∈ r.units, v.provide = i) ∨
        ∃ n, p.Secondary n ∧ n ∉ m.owned ∧ r.table.outputName? n = some i := by
  intro u hu
  have hcompiled := Program.compile_eq_ok h
  obtain ⟨m, hm, hcompile⟩ := hcompiled.module_of u hu
  refine ⟨m, hm, hcompile, fun i hi => ?_⟩
  obtain ⟨n, hcontains, howned, hi⟩ := Module.exists_of_mem_requires hcompile hi
  obtain ⟨d, hd, rfl⟩ := SymbolTable.declared_of_contains hcompiled.table hcontains
  rcases List.mem_append.mp hd with hforeign | hclass
  · exact .inl ⟨d, hforeign, hi⟩
  obtain ⟨c, hc, rfl⟩ := List.mem_map.mp hclass
  by_cases hnamed : ∃ m' ∈ p.modules, m'.name = c.name
  · obtain ⟨m', hm', hname⟩ := hnamed
    obtain ⟨v, hv, hcompile'⟩ := hcompiled.unit_of m' hm'
    obtain ⟨-, -, hprovide, -⟩ := Module.compile_eq_ok hcompile'
    rw [SymbolTable.outputName?_eq_spelling hcontains] at hi
    refine .inr (.inl ⟨v, hv, ?_⟩)
    rw [hprovide, hname]
    exact Option.some.inj hi
  · refine .inr (.inr ⟨c.name, ⟨⟨c, hc, rfl⟩, fun m' hm' hname => ?_⟩, howned, hi⟩)
    exact hnamed ⟨m', hm', hname⟩

/-- Two modules: tools with a helper beside them, and an application with a base from elsewhere
that keeps the tools and the helper. -/
def workshop : Program where
  foreign := [{ name := ⟨"core.Application"⟩ }]
  modules := [
    { name := ⟨"lib.Tools"⟩, classes := [{ name := ⟨"lib.Tools"⟩ }, { name := ⟨"lib.Helper"⟩ }] },
    { name := ⟨"app.Main"⟩
      classes := [{
        name := ⟨"app.Main"⟩, base := some ⟨"core.Application"⟩
        fields := [{ name := "tools", type := .declared ⟨"lib.Tools"⟩ },
          { name := "helper", type := .declared ⟨"lib.Helper"⟩ }] }] }]

/-- The application requires one name of each sort. -/
theorem workshop_requires_satisfied :
    ∃ r, workshop.compile {} false = .ok r ∧
      r.units.map (·.requires) = [[], ["core.Application", "lib.Helper", "lib.Tools"]] ∧
      ∀ u ∈ r.units, ∃ m ∈ workshop.modules, m.compile r.table {} = .ok u ∧ ∀ i ∈ u.requires,
        (∃ d ∈ workshop.foreign, r.table.outputName? d.name = some i) ∨ (∃ v ∈ r.units, v.provide = i) ∨
          ∃ n, workshop.Secondary n ∧ n ∉ m.owned ∧ r.table.outputName? n = some i :=
  ⟨_, rfl, by decide +kernel, requires_satisfied workshop {} false _ rfl⟩

/-- No unit provides the helper, and it is not foreign. -/
theorem workshop_helper_unprovided :
    ∃ r, workshop.compile {} false = .ok r ∧
      ¬∀ u ∈ r.units, ∀ i ∈ u.requires,
        (∃ d ∈ workshop.foreign, r.table.outputName? d.name = some i) ∨ ∃ v ∈ r.units, v.provide = i := by
  refine ⟨_, rfl, ?_⟩
  decide +kernel

end Lowering
