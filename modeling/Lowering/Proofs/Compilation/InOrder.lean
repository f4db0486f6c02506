import Lowering.Proofs.Compilation.Shares
import Lowering.Proofs.Output.Assembly
import Lowering.Proofs.Output.Failures
import Mathlib.Data.List.Forall2

/-! Units and failures in the order of the program.

A module has a unit if it declares classes and all of them are emitted, and the unit is made of
their code; otherwise it reports the failures of its classes, or that it has none
(`Module.compile_cases`). What a run gives is put together module by module from these, in
whatever order the classes are emitted (`modules_compiled_in_order`). -/
namespace Lowering

/-- What keeps a class from being emitted. -/
def ClassDecl.failure? (c : ClassDecl) (t : SymbolTable) (o : Options) : Option Error :=
  match c.emit t o with
  | .ok _ => none
  | .error e => some e

/-- The code of a class is that of the class it was emitted for. -/
theorem ClassDecl.name_of_emit {c : ClassDecl} {t : SymbolTable} {o : Options} {out : ClassOutput}
    (h : c.emit t o = .ok out) : out.name = c.name := by
  obtain ⟨p, hp, -, rfl⟩ := emit_eq_ok.mp h
  show p.decl.name = c.name
  rw [(plan_eq_ok hp).decl]

namespace Module

variable (m : Module) (t : SymbolTable) (o : Options)

/-- Whether the module declares classes and all of them are emitted. -/
def compiles : Bool := !m.classes.isEmpty && m.classes.all fun c => (c.failure? t o).isNone

/-- What a module reports: that it declares no class, or one failure for each class that is not
emitted. -/
def faults : List Error :=
  if m.classes.isEmpty then [.emptyModule m.name m.start] else m.classes.filterMap (·.failure? t o)

/-- The unit is assembled from the code of all classes of the module, as they are declared, and is
the one that is made of it. Code without a carriage return stands in it as it is. -/
def Assembles (u : LoadUnit) : Prop :=
  ∃ outputs, m.classes.map (·.emit t o) = outputs.map .ok ∧ m.assemble t o outputs = .ok u ∧
    (∀ v, m.MadeOf t o outputs v ↔ v = u) ∧
      ∀ out ∈ outputs, '\r' ∉ out.text.toList → out.body = "\n" ++ out.text

variable {m t o}

theorem failures_emitClasses : failures (m.emitClasses t o) = m.classes.filterMap (·.failure? t o) := by
  rw [failures, emitClasses, List.filterMap_map]
  refine List.filterMap_congr fun c _ => ?_
  rw [Function.comp_apply, ClassDecl.failure?]
  cases c.emit t o <;> rfl

/-- The code of all classes has their names. -/
theorem names_of_emitted {outputs : List ClassOutput} (h : m.classes.map (·.emit t o) = outputs.map .ok) :
    outputs.map (·.name) = m.classes.map (·.name) := by
  generalize m.classes = classes at h
  induction classes generalizing outputs with
  | nil =>
    obtain rfl := List.map_eq_nil_iff.mp h.symm
    rfl
  | cons c rest ih =>
    obtain ⟨out, others, rfl, hout, hothers⟩ := List.map_eq_cons_iff.mp h.symm
    rw [List.map_cons, List.map_cons, ih hothers.symm, ClassDecl.name_of_emit hout.symm]

/-- Where no class fails, the results are the code of the classes. -/
theorem emitClasses_eq (h : ∀ c ∈ m.classes, c.failure? t o = none) :
    m.emitClasses t o = (successes (m.emitClasses t o)).map .ok := by
  unfold emitClasses
  generalize m.classes = classes at h ⊢
  induction classes with
  | nil => rfl
  | cons c rest ih =>
    obtain ⟨hc, hrest⟩ := List.forall_mem_cons.mp h
    unfold ClassDecl.failure? at hc
    cases hemit : c.emit t o with
    | error e =>
      rw [hemit] at hc
      cases hc
    | ok out =>
      have hcons : successes ((c :: rest).map fun c => c.emit t o) =
          out :: successes (rest.map fun c => c.emit t o) := by
        rw [List.map_cons, hemit]
        rfl
      rw [hcons, List.map_cons, hemit, List.map_cons, ← ih hrest]

/-- A module with classes whose code is all there is assembled. -/
theorem assemble_ok {outputs : List ClassOutput} (hclasses : m.classes.isEmpty = false)
    (hnames : outputs.map (·.name) = m.classes.map (·.name)) : ∃ u, m.assemble t o outputs = .ok u := by
  unfold assemble
  rw [if_neg (by simp [hclasses]), if_neg (not_not_intro hnames)]
  exact ⟨_, rfl⟩

/-- What is assembled from the code of all classes is made of that. -/
theorem assembles_of_assemble {outputs : List ClassOutput} {u : LoadUnit}
    (hresults : m.classes.map (·.emit t o) = outputs.map .ok) (hu : m.assemble t o outputs = .ok u) :
    m.Assembles t o u := by
  refine ⟨outputs, hresults, hu, madeOf_iff_of_assemble hu, fun out hout => ?_⟩
  obtain ⟨c, -, hc⟩ := List.mem_map.mp (hresults ▸ List.mem_map_of_mem hout)
  exact ClassDecl.body_of_emit hc

/-- The unit is made of whatever code the classes have. -/
theorem Assembles.madeOf {u : LoadUnit} {outputs : List ClassOutput} (h : m.Assembles t o u)
    (houtputs : m.classes.map (·.emit t o) = outputs.map .ok) : m.MadeOf t o outputs u := by
  obtain ⟨outputs', houtputs', -, hone, -⟩ := h
  obtain rfl : outputs = outputs' :=
    List.map_injective_iff.mpr (fun _ _ => Except.ok.inj) (houtputs.symm.trans houtputs')
  exact (hone u).mpr rfl

/-- A module that compiles is assembled from its classes and has nothing to report; any other
reports its faults. -/
theorem compile_cases :
    (m.compiles t o = true ∧ m.faults t o = [] ∧ ∃ u, m.compile t o = .ok u ∧ m.Assembles t o u) ∨
      (m.compiles t o = false ∧ m.compile t o = .error (m.faults t o)) := by
  have hcompile : m.compile t o = m.conclude t o (m.emitClasses t o) := rfl
  unfold conclude at hcompile
  rw [failures_emitClasses] at hcompile
  unfold compiles faults
  cases hclasses : m.classes.isEmpty with
  | true =>
    refine .inr ⟨rfl, ?_⟩
    rw [List.isEmpty_iff.mp hclasses] at hcompile
    rw [hcompile, assemble, if_pos hclasses]
    rfl
  | false =>
    rw [if_neg Bool.false_ne_true]
    by_cases hall : ∀ c ∈ m.classes, c.failure? t o = none
    · have hnone : m.classes.filterMap (·.failure? t o) = [] := List.filterMap_eq_nil_iff.mpr hall
      have hresults := emitClasses_eq hall
      obtain ⟨u, hu⟩ := assemble_ok (t := t) (o := o) hclasses (names_of_emitted hresults)
      rw [hnone] at hcompile ⊢
      rw [hu] at hcompile
      exact .inl ⟨by simpa using hall, rfl, u, hcompile, assembles_of_assemble hresults hu⟩
    · obtain ⟨c, hc⟩ := not_forall.mp hall
      obtain ⟨hmem, hfailed⟩ := Classical.not_imp.mp hc
      have hne : m.classes.filterMap (·.failure? t o) ≠ [] := fun hnil =>
        hfailed (List.filterMap_eq_nil_iff.mp hnil c hmem)
      refine .inr ⟨?_, ?_⟩
      · rw [Bool.not_false, Bool.true_and, List.all_eq_false]
        exact ⟨c, hmem, by simpa using hfailed⟩
      · rw [hcompile]
        split
        next h => exact absurd h hne
        next => rfl

/-- A module that has nothing to report is one that compiles. -/
theorem faults_eq_nil_iff : m.faults t o = [] ↔ m.compiles t o = true := by
  unfold faults compiles
  cases m.classes.isEmpty with
  | true => exact iff_of_false (List.cons_ne_nil _ _) Bool.false_ne_true
  | false =>
    rw [if_neg Bool.false_ne_true, List.filterMap_eq_nil_iff, Bool.not_false, Bool.true_and, List.all_eq_true]
    exact forall₂_congr fun c _ => Option.isNone_iff_eq_none.symm

/-- No module reports that a stage was given what no earlier one produces. -/
theorem faults_sourced : ∀ e ∈ m.faults t o, e.Sourced := by
  intro e he
  unfold faults at he
  split at he
  · obtain rfl := List.mem_singleton.mp he
    exact nofun
  · obtain ⟨c, -, hc⟩ := List.mem_filterMap.mp he
    unfold ClassDecl.failure? at hc
    split at hc
    · cases hc
    · obtain rfl := Option.some.inj hc
      exact ClassDecl.emit_sourced ‹_›

end Module

/-- The units of modules are those of the modules that compile, one for one. -/
theorem units_of_modules (t : SymbolTable) (o : Options) (ms : List Module) :
    List.Forall₂ (fun m u => m.Assembles t o u) (ms.filter (·.compiles t o))
      (successes (ms.map (·.compile t o))) := by
  induction ms with
  | nil => exact .nil
  | cons m rest ih =>
    rw [List.map_cons]
    obtain ⟨hcompiles, -, u, hu, hassembles⟩ | ⟨hcompiles, hfaults⟩ := m.compile_cases (t := t) (o := o)
    · rw [List.filter_cons, if_pos hcompiles, hu]
      exact .cons hassembles ih
    · rw [List.filter_cons, if_neg (by simp [hcompiles]), hfaults]
      exact ih

/-- The failures are what each module reports, one module after the other. -/
theorem failures_of_modules (t : SymbolTable) (o : Options) (ms : List Module) :
    (failures (ms.map (·.compile t o))).flatten = ms.flatMap (·.faults t o) := by
  induction ms with
  | nil => rfl
  | cons m rest ih =>
    rw [List.map_cons, List.flatMap_cons, ← ih]
    obtain ⟨-, hfaults, u, hu, -⟩ | ⟨-, hfaults⟩ := m.compile_cases (t := t) (o := o)
    · rw [hu, hfaults]
      rfl
    · rw [hfaults]
      rfl

/-- **In whatever order the classes of a program are emitted, its modules that compile have one
unit each, assembled from their own classes, and the others report their own faults, both in the
order of the program; and no stage is given what no earlier one produces.** -/
theorem modules_compiled_in_order (p : Program) (o : Options) (t : SymbolTable) (order : List Nat)
    (ht : SymbolTable.ofProgram p o.nameStyle = .ok t) (horder : ∀ i < p.classes.length, i ∈ order) :
    ∃ r, p.runInOrder o order = .ok r ∧ p.run o false = .ok r ∧ r.table = t ∧
      List.Forall₂ (fun m u => m.Assembles t o u) (p.modules.filter (·.compiles t o)) r.units ∧
      r.errors = p.modules.flatMap (·.faults t o) ∧ ∀ e ∈ r.errors, e.Sourced := by
  refine ⟨p.compileWith t o, ?_, ?_, rfl, units_of_modules t o p.modules,
    failures_of_modules t o p.modules, fun e he => ?_⟩
  · rw [Program.runInOrder_eq horder, ht]
    rfl
  · rw [Program.run_eq, ht]
    rfl
  · have hreported : e ∈ p.modules.flatMap (·.faults t o) := by
      rw [← failures_of_modules]
      exact he
    obtain ⟨m, -, hm⟩ := List.mem_flatMap.mp hreported
    exact m.faults_sourced e hm

/-- Four modules: one with a class, one without, one of whose two classes the second has a field
of an unknown type, and one with two classes. -/
def patchwork : Program where
  modules := [
    { name := ⟨"app.First"⟩, classes := [{ name := ⟨"app.First"⟩ }] },
    { name := ⟨"app.Empty"⟩ },
    { name := ⟨"app.Broken"⟩
      classes := [{ name := ⟨"app.Broken"⟩ },
        { name := ⟨"app.Part"⟩, fields := [{ name := "x", type := .declared ⟨"app.Missing"⟩ }] }] },
    { name := ⟨"app.Last"⟩, classes := [{ name := ⟨"app.Last"⟩ }, { name := ⟨"app.Rest"⟩ }] }]

/-- Emitted from the last class to the first, the patchwork has two units and two failures. The text
of each unit is its head and the code of its classes. -/
theorem patchwork_compiled_in_order :
    ∃ t r first last rest, SymbolTable.ofProgram patchwork .dotted = .ok t ∧
      (∀ i < patchwork.classes.length, i ∈ [4, 3, 2, 1, 0]) ∧ patchwork.runInOrder {} [4, 3, 2, 1, 0] = .ok r ∧
      ClassDecl.emit { name := ⟨"app.First"⟩ } t {} = .ok first ∧
      ClassDecl.emit { name := ⟨"app.Last"⟩ } t {} = .ok last ∧
      ClassDecl.emit { name := ⟨"app.Rest"⟩ } t {} = .ok rest ∧
      r.units.map (fun u => (u.module, u.provide, u.requires)) =
        [(⟨"app.First"⟩, "app.First", []), (⟨"app.Last"⟩, "app.Last", [])] ∧
      r.units.map (·.text) =
        ["/**\n * Generated by Kestrel\n * app.First\n *\n * @fileoverview\n *\n" ++
            " * @suppress \x7bcheckTypes|accessControls\x7d\n */\n\ngoog.provide('app.First');\n\n" ++ first.body,
          "/**\n * Generated by Kestrel\n * app.Last\n *\n * @fileoverview\n *\n" ++
            " * @suppress \x7bcheckTypes|accessControls\x7d\n */\n\ngoog.provide('app.Last');\n\n" ++
            (last.body ++ rest.body)] ∧
      r.errors = [.emptyModule ⟨"app.Empty"⟩ none, .unresolvedSymbol ⟨"app.Missing"⟩ ⟨"app.Part"⟩ none] ∧
      List.Forall₂ (fun m u => m.Assembles t {} u) (patchwork.modules.filter (·.compiles t {})) r.units := by
  obtain ⟨t, ht⟩ : ∃ t, SymbolTable.ofProgram patchwork .dotted = .ok t := ⟨_, rfl⟩
  obtain ⟨r, hr, -, -, hunits, -⟩ := modules_compiled_in_order patchwork {} t [4, 3, 2, 1, 0] ht (by decide)
  have hemitted : (∃ out, ClassDecl.emit { name := ⟨"app.First"⟩ } t {} = .ok out) ∧
      (∃ out, ClassDecl.emit { name := ⟨"app.Last"⟩ } t {} = .ok out) ∧
      ∃ out, ClassDecl.emit { name := ⟨"app.Rest"⟩ } t {} = .ok out := by
    obtain rfl := Except.ok.inj ht
    exact ⟨⟨_, rfl⟩, ⟨_, rfl⟩, ⟨_, rfl⟩⟩
  have hresult : r.units.map (fun u => (u.module, u.provide, u.requires)) =
      [(⟨"app.First"⟩, "app.First", []), (⟨"app.Last"⟩, "app.Last", [])] ∧
      r.errors = [.emptyModule ⟨"app.Empty"⟩ none, .unresolvedSymbol ⟨"app.Missing"⟩ ⟨"app.Part"⟩ none] := by
    obtain rfl := Except.ok.inj ht
    obtain rfl := Except.ok.inj hr
    decide +kernel
  have hfilter : patchwork.modules.filter (·.compiles t {}) = [patchwork.modules[0], patchwork.modules[3]] := by
    obtain rfl := Except.ok.inj ht
    rfl
  obtain ⟨⟨first, hfirst⟩, ⟨last, hlast⟩, rest, hrest⟩ := hemitted
  obtain ⟨hloader, herrors⟩ := hresult
  refine ⟨t, r, first, last, rest, ht, by decide, hr, hfirst, hlast, hrest, hloader, ?_, herrors, hunits⟩
  have hfirstEmitted : patchwork.modules[0].classes.map (·.emit t {}) = [first].map .ok :=
    congrArg ([·]) hfirst
  have hlastEmitted : patchwork.modules[3].classes.map (·.emit t {}) = [last, rest].map .ok :=
    congrArg₂ ([·, ·]) hlast hrest
  rw [hfilter] at hunits
  obtain ⟨u, _, hu, hothers, hboth⟩ := List.forall₂_cons_left_iff.mp hunits
  obtain ⟨v, _, hv, hnone, rfl⟩ := List.forall₂_cons_left_iff.mp hothers
  obtain rfl := List.forall₂_nil_left_iff.mp hnone
  rw [hboth] at hloader ⊢
  simp only [List.map_cons, List.map_nil, List.cons.injEq, Prod.mk.injEq, and_true] at hloader ⊢
  obtain ⟨⟨-, huProvide, huRequires⟩, -, hvProvide, hvRequires⟩ := hloader
  rw [(hu.madeOf hfirstEmitted).text, huProvide, huRequires, (hv.madeOf hlastEmitted).text, hvProvide, hvRequires]
  exact ⟨rfl, rfl⟩

end Lowering
