import Lowering.Proofs.Compilation.Shares
import Lowering.Proofs.Symbol.Reordering

/-! Programs in another order.

A table knows a class by a symbol of which ids and places never get into the code: what is
written of a plan is the same without them (`ClassPlan.layout_portable`). So each class, and
each module, comes out alike with tables that differ in nothing else (`Module.compile_alike`),
and such are the tables of programs that list the same declarations and modules in different
orders (`reordered_compiled_alike`). -/
namespace Lowering

/-! ### Tables -/

namespace SymbolTable.Alike

variable {t t' : SymbolTable} (h : t.Alike t')
include h

theorem contains : t'.contains = t.contains := by
  funext n
  have hfind := congrArg Option.isSome (h.find? n)
  rwa [Option.isSome_map, Option.isSome_map] at hfind

theorem spelling : t'.spelling = t.spelling := by
  funext n
  have hnames := congrArg (Option.map (·.outputName)) (h.find? n)
  rw [Option.map_map, Option.map_map] at hnames
  have hidentifier : t'.outputName? n = t.outputName? n := hnames
  rw [SymbolTable.spelling, SymbolTable.spelling, hidentifier, h.style]

end SymbolTable.Alike

/-! ### Classes -/

/-- The plan without ids and without the place of the declaration. -/
def ClassPlan.portable (p : ClassPlan) : ClassPlan := { p with symbol := p.symbol.portable }

theorem ClassPlan.layout_portable (p : ClassPlan) : p.portable.layout = p.layout := rfl

/-- The code of a class without what depends on the order of the program. -/
def ClassOutput.portable (out : ClassOutput) : ClassOutput := { out with plan := out.plan.portable }

namespace ClassDecl

variable {c : ClassDecl} {t t' : SymbolTable} {o : Options}

theorem plan_alike (h : t.Alike t') :
    (c.plan t' o).map ClassPlan.portable = (c.plan t o).map ClassPlan.portable := by
  have hdependencies : c.dependencies t' o = c.dependencies t o := by
    unfold dependencies
    rw [h.contains]
  unfold plan SymbolTable.resolve
  rw [hdependencies]
  have hfind := h.find? c.name
  cases hs : t.find? c.name with
  | none =>
    rw [hs, Option.map_none, Option.map_eq_none_iff] at hfind
    rw [hfind]
  | some s =>
    rw [hs, Option.map_some, Option.map_eq_some_iff] at hfind
    obtain ⟨s', hs', hportable⟩ := hfind
    rw [hs']
    -- from here on the two plans go the same way, with different symbols
    show (c.dependencies t o >>= _).map _ = (c.dependencies t o >>= _).map _
    refine map_bind_congr fun needed => map_bind_congr fun linearized =>
      map_bind_congr fun accessors => map_bind_congr fun handlers => ?_
    show Except.ok (ClassPlan.portable _) = Except.ok (ClassPlan.portable _)
    unfold ClassPlan.portable
    rw [hportable]

/-- A class comes out alike, or fails alike. -/
theorem emit_alike (h : t.Alike t') :
    (c.emit t' o).map ClassOutput.portable = (c.emit t o).map ClassOutput.portable := by
  have hplan := plan_alike (c := c) (o := o) h
  unfold emit
  cases hp : c.plan t o with
  | error e =>
    rw [hp] at hplan
    rw [map_eq_error.mp hplan]
    rfl
  | ok p =>
    rw [hp] at hplan
    obtain ⟨p', hp', hportable⟩ := map_eq_ok.mp hplan
    have hlayout : p'.layout = p.layout := by
      rw [← p'.layout_portable, hportable, p.layout_portable]
    have hwrite : t'.writeLayout c.name p'.layout = t.writeLayout c.name p.layout := by
      unfold SymbolTable.writeLayout SymbolTable.checkReferences
      rw [hlayout, h.contains, h.spelling]
    have hidentifier : p'.symbol.outputName = p.symbol.outputName :=
      congrArg (fun q => q.symbol.outputName) hportable
    rw [hp']
    show (t'.writeLayout c.name p'.layout >>= fun text => _).map _ = (t.writeLayout c.name p.layout >>= fun text => _).map _
    rw [hwrite]
    cases t.writeLayout c.name p.layout with
    | error e => rfl
    | ok text =>
      show Except.ok (ClassOutput.portable _) = Except.ok (ClassOutput.portable _)
      unfold ClassOutput.portable
      dsimp only
      rw [hportable, hidentifier]

end ClassDecl

/-! ### Modules -/

namespace Module

variable (m : Module) {t t' : SymbolTable} {o : Options}

theorem assemble_portable (outputs : List ClassOutput) :
    m.assemble t o (outputs.map ClassOutput.portable) = m.assemble t o outputs := by
  have hnames : (outputs.map ClassOutput.portable).map (·.name) = outputs.map (·.name) := List.map_map
  have hrequired : m.required (outputs.map ClassOutput.portable) = m.required outputs := by
    unfold required
    rw [List.flatMap_map]
    rfl
  have hlayout : m.unitLayout o (outputs.map ClassOutput.portable) = m.unitLayout o outputs := by
    unfold unitLayout
    rw [hrequired, List.flatMap_map]
    rfl
  unfold assemble
  rw [hnames, hrequired, hlayout]

theorem conclude_portable (results : List (Except Error ClassOutput)) :
    m.conclude t o (results.map (·.map ClassOutput.portable)) = m.conclude t o results := by
  unfold conclude
  rw [failures_map, successes_map, assemble_portable]

/-- A module has the same unit, or reports the same, with tables that differ in ids and places. -/
theorem compile_alike (h : t.Alike t') : m.compile t' o = m.compile t o := by
  have hemitted : (m.emitClasses t' o).map (·.map ClassOutput.portable) =
      (m.emitClasses t o).map (·.map ClassOutput.portable) := by
    unfold emitClasses
    rw [List.map_map, List.map_map]
    exact List.map_congr_left fun c _ => ClassDecl.emit_alike h
  have hconclude : m.conclude t' o = m.conclude t o := by
    funext results
    unfold conclude assemble
    rw [h.spelling]
  rw [compile, ← conclude_portable, hemitted, conclude_portable, hconclude]
  rfl

end Module

/-- **Programs that list the same declarations and the same modules in different orders get a table
or fail to get one together, and where they get one, each module has the same unit or the same
failures in both.** -/
theorem reordered_compiled_alike (p p' : Program) (o : Options) (hforeign : p'.foreign.Perm p.foreign)
    (hmodules : p'.modules.Perm p.modules) :
    ((∃ t, SymbolTable.ofProgram p o.nameStyle = .ok t) ↔
        ∃ t', SymbolTable.ofProgram p' o.nameStyle = .ok t') ∧
      ∀ t t', SymbolTable.ofProgram p o.nameStyle = .ok t →
        SymbolTable.ofProgram p' o.nameStyle = .ok t' →
          p.run o false = .ok (p.compileWith t o) ∧ p'.run o false = .ok (p'.compileWith t' o) ∧
            ∀ m ∈ p.modules, m.compile t' o = m.compile t o := by
  have hperm : p'.declarations.Perm p.declarations :=
    hforeign.append ((hmodules.flatMap_right _).map _)
  refine ⟨⟨fun ⟨t, ht⟩ => ?_, fun ⟨t', ht'⟩ => ?_⟩, fun t t' ht ht' => ⟨?_, ?_, fun m _ => ?_⟩⟩
  · obtain ⟨t', ht', -⟩ := SymbolTable.ofProgram_alike hperm ht
    exact ⟨t', ht'⟩
  · obtain ⟨t, ht, -⟩ := SymbolTable.ofProgram_alike hperm.symm ht'
    exact ⟨t, ht⟩
  · rw [Program.run_eq, ht]
    rfl
  · rw [Program.run_eq, ht']
    rfl
  · obtain ⟨t'', ht'', halike⟩ := SymbolTable.ofProgram_alike hperm ht
    obtain rfl := Except.ok.inj (ht'.symm.trans ht'')
    exact m.compile_alike halike

/-- Two foreign classes whose names flatten alike, and three modules: one with a class that extends
one of them, one without a class, and one whose class refers to nothing that is declared. -/
def gallery : Program where
  foreign := [{ name := ⟨"ui_kit.View"⟩ }, { name := ⟨"ui.kit_View"⟩, reflectable := true }]
  modules := [
    { name := ⟨"app.Gallery"⟩
      classes := [{ name := ⟨"app.Gallery"⟩, base := some ⟨"ui.kit_View"⟩ }] },
    { name := ⟨"app.Empty"⟩ },
    { name := ⟨"app.Broken"⟩
      classes := [
        { name := ⟨"app.Broken"⟩, fields := [{ name := "x", type := .declared ⟨"app.Missing"⟩ }] }] }]

/-- Listed from last to first, the gallery gets other ids and the same units and failures. -/
theorem gallery_reversed_alike :
    ∃ p' t t', p'.foreign.Perm gallery.foreign ∧ p'.modules.Perm gallery.modules ∧
      SymbolTable.ofProgram gallery .flattened = .ok t ∧ SymbolTable.ofProgram p' .flattened = .ok t' ∧
      t.id? ⟨"app.Gallery"⟩ ≠ t'.id? ⟨"app.Gallery"⟩ ∧
      ∀ m ∈ gallery.modules, m.compile t' { nameStyle := .flattened } = m.compile t { nameStyle := .flattened } := by
  let p' : Program := ⟨gallery.foreign.reverse, gallery.modules.reverse⟩
  have ht : SymbolTable.ofProgram gallery .flattened = .ok _ := rfl
  have ht' : SymbolTable.ofProgram p' .flattened = .ok _ := rfl
  obtain ⟨-, halike⟩ := reordered_compiled_alike gallery p' { nameStyle := .flattened }
    (List.reverse_perm gallery.foreign) (List.reverse_perm gallery.modules)
  obtain ⟨-, -, hmodules⟩ := halike _ _ ht ht'
  exact ⟨p', _, _, List.reverse_perm _, List.reverse_perm _, ht, ht', by decide +kernel, hmodules⟩

end Lowering
