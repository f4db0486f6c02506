import Lowering.Proofs.Output.Reordered

/-! One class exchanged for another.

The rest of a program knows a class by its declaration alone. A class that is exchanged for one
with the same declaration, up to places, leaves a table that is alike (`exchanged_alike`), so each
of the other modules has the unit that it had before, or reports what it reported. Nothing changes
among the units and failures of the program but what the module of the class contributes, whether
the class compiles or not (`others_unaffected`). -/
namespace Lowering

/-- A program with a place for one class. -/
structure Surroundings where
  foreign : List Declaration := []
  /-- The modules before that of the class. -/
  before : List Module := []
  /-- The name of the module of the class. -/
  name : Name
  source : Option String := none
  imports : List Name := []
  /-- The classes of the module that come before. -/
  earlier : List ClassDecl := []
  later : List ClassDecl := []
  after : List Module := []

namespace Surroundings

variable (s : Surroundings) (c c' : ClassDecl)

/-- The module with a class at the place. -/
def module : Module where
  name := s.name
  source := s.source
  imports := s.imports
  classes := s.earlier ++ c :: s.later

/-- The program with a class at the place. -/
def program : Program := ⟨s.foreign, s.before ++ s.module c :: s.after⟩

variable {s c c'} {style : NameStyle} {t : SymbolTable}

/-- Only the places of declarations change with the class. -/
theorem placeless_declarations (h : (Declaration.ofClass c).sameDefinition (.ofClass c') = true) :
    (s.program c').declarations.map (·.placeless) = (s.program c).declarations.map (·.placeless) := by
  have hplaceless : (Declaration.ofClass c).placeless = (Declaration.ofClass c').placeless :=
    Declaration.sameDefinition_iff.mp h
  simp [program, module, Program.declarations, Program.classes, hplaceless]

/-- The program gets a table with one class where it gets one with the other, and they are alike. -/
theorem exchanged_alike (h : (Declaration.ofClass c).sameDefinition (.ofClass c') = true)
    (ht : SymbolTable.ofProgram (s.program c) style = .ok t) :
    ∃ t', SymbolTable.ofProgram (s.program c') style = .ok t' ∧ t.Alike t' :=
  SymbolTable.ofProgram_alike_of_placeless (.of_eq (placeless_declarations h)) ht

end Surroundings

/-- What comes of modules makes up the units and the failures of a compilation. -/
structure Compilation.Lists (r : Compilation) (results : List (Except (List Error) LoadUnit)) : Prop where
  units : r.units = successes results
  errors : r.errors = (failures results).flatten

theorem Program.lists_compileWith (p : Program) (t : SymbolTable) (o : Options) :
    (p.compileWith t o).Lists (p.modules.map fun m => m.compile t o) := ⟨rfl, rfl⟩

/-- **If a class is exchanged for one with the same declaration, the program gets a table as before
or fails to get one as before. Where it gets one, each other module has the same unit or the same
failures in both runs, and these stand in the same order, before and after what comes of the
module of the class.** -/
theorem others_unaffected (s : Surroundings) (c c' : ClassDecl) (o : Options)
    (h : (Declaration.ofClass c).sameDefinition (.ofClass c') = true) :
    ((∃ t, SymbolTable.ofProgram (s.program c) o.nameStyle = .ok t) ↔
        ∃ t', SymbolTable.ofProgram (s.program c') o.nameStyle = .ok t') ∧
      ∀ t t', SymbolTable.ofProgram (s.program c) o.nameStyle = .ok t →
        SymbolTable.ofProgram (s.program c') o.nameStyle = .ok t' →
          (∀ m ∈ s.before ++ s.after, m.compile t' o = m.compile t o) ∧
          ∃ r r', (s.program c).run o false = .ok r ∧ (s.program c').run o false = .ok r' ∧
            r.Lists (s.before.map (·.compile t o) ++ (s.module c).compile t o ::
              s.after.map (·.compile t o)) ∧
            r'.Lists (s.before.map (·.compile t o) ++ (s.module c').compile t' o ::
              s.after.map (·.compile t o)) := by
  have h' : (Declaration.ofClass c').sameDefinition (.ofClass c) = true :=
    Declaration.sameDefinition_iff.mpr (Declaration.sameDefinition_iff.mp h).symm
  refine ⟨⟨fun ⟨t, ht⟩ => ?_, fun ⟨t', ht'⟩ => ?_⟩, fun t t' ht ht' => ?_⟩
  · obtain ⟨t', ht', -⟩ := Surroundings.exchanged_alike h ht
    exact ⟨t', ht'⟩
  · obtain ⟨t, ht, -⟩ := Surroundings.exchanged_alike h' ht'
    exact ⟨t, ht⟩
  · obtain ⟨t'', ht'', halike⟩ := Surroundings.exchanged_alike h ht
    obtain rfl := Except.ok.inj (ht'.symm.trans ht'')
    have hcompile (m : Module) : m.compile t' o = m.compile t o := m.compile_alike halike
    refine ⟨fun m _ => hcompile m, (s.program c).compileWith t o, (s.program c').compileWith t' o,
      by rw [Program.run_eq, ht]; rfl, by rw [Program.run_eq, ht']; rfl, ?_, ?_⟩
    · have hlists := (s.program c).lists_compileWith t o
      rwa [Surroundings.program, List.map_append, List.map_cons] at hlists
    · have hothers (ms : List Module) : ms.map (·.compile t' o) = ms.map (·.compile t o) :=
        List.map_congr_left fun m _ => hcompile m
      have hlists := (s.program c').lists_compileWith t' o
      rwa [Surroundings.program, List.map_append, List.map_cons, hothers, hothers] at hlists

/-- A place between a module that extends the class at it and a module without classes. -/
def besidePanel : Surroundings where
  before := [{ name := ⟨"app.Main"⟩, classes := [{ name := ⟨"app.Main"⟩, base := some ⟨"ui.Panel"⟩ }] }]
  name := ⟨"ui.Panel"⟩
  earlier := [{ name := ⟨"ui.Border"⟩ }]
  after := [{ name := ⟨"app.Empty"⟩ }, { name := ⟨"ui.Icon"⟩, classes := [{ name := ⟨"ui.Icon"⟩ }] }]

/-- A field of an unknown type keeps the panel from being emitted, and its module alone from being
assembled. -/
theorem panel_failure_isolated :
    ∃ c c' t t' r r', (Declaration.ofClass c).sameDefinition (.ofClass c') = true ∧
      SymbolTable.ofProgram (besidePanel.program c) .dotted = .ok t ∧
      SymbolTable.ofProgram (besidePanel.program c') .dotted = .ok t' ∧
      (besidePanel.program c).run {} false = .ok r ∧ (besidePanel.program c').run {} false = .ok r' ∧
      r.units.map (·.provide) = ["app.Main", "ui.Panel", "ui.Icon"] ∧
      r'.units.map (·.provide) = ["app.Main", "ui.Icon"] ∧
      r.errors = [.emptyModule ⟨"app.Empty"⟩ none] ∧
      r'.errors = [.unresolvedSymbol ⟨"ui.Missing"⟩ ⟨"ui.Panel"⟩ none, .emptyModule ⟨"app.Empty"⟩ none] ∧
      ∀ m ∈ besidePanel.before ++ besidePanel.after, m.compile t' {} = m.compile t {} := by
  let c : ClassDecl := { name := ⟨"ui.Panel"⟩ }
  let c' : ClassDecl := { name := ⟨"ui.Panel"⟩, fields := [{ name := "x", type := .declared ⟨"ui.Missing"⟩ }] }
  have hsame : (Declaration.ofClass c).sameDefinition (.ofClass c') = true := by decide +kernel
  have ht : SymbolTable.ofProgram (besidePanel.program c) .dotted = .ok _ := rfl
  have ht' : SymbolTable.ofProgram (besidePanel.program c') .dotted = .ok _ := rfl
  obtain ⟨-, hothers⟩ := others_unaffected besidePanel c c' {} hsame
  obtain ⟨hcompile, r, r', hr, hr', -⟩ := hothers _ _ ht ht'
  obtain rfl := Except.ok.inj hr
  obtain rfl := Except.ok.inj hr'
  exact ⟨c, c', _, _, _, _, hsame, ht, ht', rfl, rfl, by decide +kernel, by decide +kernel,
    by decide +kernel, by decide +kernel, hcompile⟩

end Lowering
