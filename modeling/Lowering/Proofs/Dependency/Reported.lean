import Lowering.Dependency.Report
import Lowering.Proofs.Compilation.InOrder
import Lowering.Proofs.Output.Loading
import Mathlib.Data.List.Flatten

/-! Reported dependencies.

A report looks for the dependencies of each class, and so does a compilation before it emits the
class. So what keeps a report from being made is among the failures of the compilation, in the
same order, and where the compilation has no failure, what a unit requires can be read off the
report: it is what the report lists for the classes of the module and the module does not declare
(`reported_as_compiled`). A report on the modules of one name is a part of the whole. -/
namespace Lowering

namespace ClassDecl

variable (c : ClassDecl) (t : SymbolTable) (o : Options)

/-- The dependencies of a class, where they can be found. -/
def needed : NameSet :=
  match c.dependencies t o with
  | .ok names => names
  | .error _ => .empty

/-- The entry of a class in a report. -/
def entry : String × NameSet := (c.name.text, c.needed t o)

variable {c t o}

theorem needed_eq {names : NameSet} (h : c.dependencies t o = .ok names) : c.needed t o = names := by
  rw [needed, h]

/-- Emitting a class begins with its dependencies. -/
theorem emit_error_of_dependencies (hc : t.contains c.name = true) {e : Error}
    (h : c.dependencies t o = .error e) : c.emit t o = .error e := by
  obtain ⟨s, hs⟩ := Option.isSome_iff_exists.mp hc
  have hresolve : t.resolve c.name c.name = .ok s := by
    rw [SymbolTable.resolve, hs]
  have hplan : c.plan t o = .error e := by
    refine bind_eq_error.mpr (.inr ⟨s, ?_, bind_eq_error.mpr (.inl h)⟩)
    rw [hresolve]
    rfl
  exact bind_eq_error.mpr (.inl hplan)

theorem dependencies_of_emit {out : ClassOutput} (h : c.emit t o = .ok out) :
    c.dependencies t o = .ok out.dependencies := by
  obtain ⟨p, hp, -, rfl⟩ := emit_eq_ok.mp h
  exact (plan_eq_ok hp).dependencies

/-- The results of a report fail as the dependencies do. -/
theorem failures_entries (cs : List ClassDecl) :
    failures (cs.map fun c => (c.dependencies t o).map fun names => (c.name.text, names)) =
      failures (cs.map (·.dependencies t o)) := by
  induction cs with
  | nil => rfl
  | cons c rest ih =>
    rw [List.map_cons, List.map_cons]
    cases c.dependencies t o with
    | ok names => exact ih
    | error e => exact congrArg (e :: ·) ih

/-- Where none of them fails, they are the entries of the classes. -/
theorem successes_entries {cs : List ClassDecl} (h : ∀ c ∈ cs, c.dependencies t o = .ok (c.needed t o)) :
    successes (cs.map fun c => (c.dependencies t o).map fun names => (c.name.text, names)) =
      cs.map (·.entry t o) := by
  induction cs with
  | nil => rfl
  | cons c rest ih =>
    obtain ⟨hc, hrest⟩ := List.forall_mem_cons.mp h
    rw [List.map_cons, hc]
    exact congrArg (c.entry t o :: ·) (ih hrest)

/-- Without a failure all of them have their dependencies. -/
theorem dependencies_of_failures {cs : List ClassDecl} (h : failures (cs.map (·.dependencies t o)) = []) :
    ∀ c ∈ cs, c.dependencies t o = .ok (c.needed t o) := by
  intro c hc
  cases hdependencies : c.dependencies t o with
  | ok names => rw [needed_eq hdependencies]
  | error e =>
    have hfailed : e ∈ failures (cs.map (·.dependencies t o)) :=
      mem_failures.mpr (hdependencies ▸ List.mem_map_of_mem hc)
    rw [h] at hfailed
    cases hfailed

end ClassDecl

/-! ### Reports -/

/-- Filtering by the keys of a part gives the part, where no key is there twice. -/
theorem filter_keys_of_sublist {part entries : List (String × NameSet)} (h : part.Sublist entries)
    (hdistinct : (entries.map (·.1)).Nodup) :
    entries.filter (fun e => decide (e.1 ∈ part.map (·.1))) = part := by
  induction h with
  | slnil => rfl
  | @cons part rest e hsublist ih =>
    obtain ⟨he, hrest⟩ := List.nodup_cons.mp hdistinct
    have hout : e.1 ∉ part.map (·.1) := fun hmem => he ((hsublist.map _).subset hmem)
    rw [List.filter_cons_of_neg (by simpa using hout), ih hrest]
  | @cons_cons part rest e hsublist ih =>
    obtain ⟨he, hrest⟩ := List.nodup_cons.mp hdistinct
    have hkeys : rest.filter (fun e' => decide (e'.1 ∈ (e :: part).map (·.1))) =
        rest.filter (fun e' => decide (e'.1 ∈ part.map (·.1))) := by
      refine List.filter_congr fun e' he' => ?_
      have hne : e'.1 ≠ e.1 := fun heq => he (List.mem_map.mpr ⟨e', he', heq⟩)
      simp [hne]
    rw [List.filter_cons_of_pos (by simp), hkeys, ih hrest]

namespace Program

variable {p : Program} {t : SymbolTable} {o : Options}

theorem classesOf_none : p.classesOf none = p.classes := by
  have hall : p.modules.filter (fun m => (none : Option Name).all (· = m.name)) = p.modules :=
    List.filter_eq_self.mpr fun _ _ => rfl
  rw [classesOf, hall, classes]

theorem classesOf_sublist (only : Option Name) : (p.classesOf only).Sublist p.classes :=
  List.filter_sublist.flatMap _

theorem mem_classesOf {name : Name} {c : ClassDecl} :
    c ∈ p.classesOf (some name) ↔ ∃ m ∈ p.modules, m.name = name ∧ c ∈ m.classes := by
  simp [classesOf, and_assoc, eq_comm]

theorem mem_keys_classesOf {name : Name} {key : String} :
    key ∈ ((p.classesOf (some name)).map (·.entry t o)).map (·.1) ↔
      ∃ m ∈ p.modules, m.name = name ∧ key ∈ m.classes.map (·.name.text) := by
  rw [List.map_map, List.mem_map]
  constructor
  · rintro ⟨c, hc, rfl⟩
    obtain ⟨m, hm, hname, hc⟩ := mem_classesOf.mp hc
    exact ⟨m, hm, hname, List.mem_map_of_mem hc⟩
  · rintro ⟨m, hm, hname, hkey⟩
    obtain ⟨c, hc, rfl⟩ := List.mem_map.mp hkey
    exact ⟨c, mem_classesOf.mpr ⟨m, hm, hname, hc⟩, rfl⟩

/-- There is a report if every class in it has its dependencies, and otherwise every failure to
find them. -/
theorem dependencyReport_cases (ht : SymbolTable.ofProgram p o.nameStyle = .ok t) (only : Option Name) :
    ((∀ c ∈ p.classesOf only, c.dependencies t o = .ok (c.needed t o)) ∧
        p.dependencyReport o only = .ok (.ofList ((p.classesOf only).map (·.entry t o)))) ∨
      (failures ((p.classesOf only).map (·.dependencies t o)) ≠ [] ∧
        p.dependencyReport o only = .error (failures ((p.classesOf only).map (·.dependencies t o)))) := by
  generalize hreport : p.dependencyReport o only = report
  unfold dependencyReport at hreport
  rw [ht] at hreport
  dsimp only [bind, Except.bind, pure, Except.pure] at hreport
  rw [ClassDecl.failures_entries] at hreport
  split at hreport
  next hnone =>
    have hall := ClassDecl.dependencies_of_failures hnone
    rw [ClassDecl.successes_entries hall] at hreport
    exact .inl ⟨hall, hreport.symm⟩
  next hsome => exact .inr ⟨hsome, hreport.symm⟩

/-- A part of a program has a report where the whole has one. -/
theorem exists_report (ht : SymbolTable.ofProgram p o.nameStyle = .ok t)
    (hall : ∀ c ∈ p.classes, c.dependencies t o = .ok (c.needed t o)) (only : Option Name) :
    p.dependencyReport o only = .ok (.ofList ((p.classesOf only).map (·.entry t o))) := by
  obtain ⟨-, hreport⟩ | ⟨hsome, -⟩ := dependencyReport_cases ht only
  · exact hreport
  · obtain ⟨e, he⟩ := List.exists_mem_of_ne_nil _ hsome
    obtain ⟨c, hc, hfailed⟩ := List.mem_map.mp (mem_failures.mp he)
    rw [hall c ((classesOf_sublist only).subset hc)] at hfailed
    cases hfailed

/-- The entries of a report on classes of different names are those of the classes. -/
theorem entries_report {cs : List ClassDecl} (h : (cs.map (·.name)).Nodup) :
    (OrderedMap.ofList (cs.map (·.entry t o))).entries = cs.map (·.entry t o) := by
  refine OrderedMap.entries_ofList ?_
  have htexts : (cs.map (·.entry t o)).map (·.1) = (cs.map (·.name)).map (·.text) := by
    rw [List.map_map, List.map_map]
    rfl
  rw [htexts]
  exact h.map fun _ _ => congrArg Name.mk

end Program

/-! ### Requirements -/

/-- A report lists a name for a class. -/
def DependencyReport.Lists (report : DependencyReport) (c : ClassDecl) (n : Name) : Prop :=
  ∃ names, report.get? c.name.text = some names ∧ n ∈ names

namespace Module

variable {m : Module} {t : SymbolTable} {o : Options} {u : LoadUnit}

/-- A unit requires the names that a report lists for the classes of the module and that the
module does not declare, in their order and each of them once. -/
structure RequiresListed (m : Module) (t : SymbolTable) (report : DependencyReport) (u : LoadUnit) : Prop where
  module : u.module = m.name
  requires : ∃ names : List Name, names.Pairwise (· < ·) ∧ u.requires.map some = names.map t.outputName? ∧
    ∀ n, n ∈ names ↔ (∃ c ∈ m.classes, report.Lists c n) ∧ (∀ c ∈ m.classes, c.name ≠ n) ∧ m.name ≠ n

theorem Assembles.module (h : m.Assembles t o u) : u.module = m.name := by
  obtain ⟨outputs, -, hassemble, -⟩ := h
  exact (madeOf_of_assemble hassemble).module

/-- What a unit requires are the dependencies of the classes of its module. -/
theorem Assembles.requires (h : m.Assembles t o u) :
    ∃ names : NameSet, u.requires.map some = names.names.map t.outputName? ∧
      ∀ n, n ∈ names ↔ (∃ c ∈ m.classes, n ∈ c.needed t o) ∧ n ∉ m.owned := by
  obtain ⟨outputs, houtputs, hassemble, -⟩ := h
  have hclass (out : ClassOutput) (hout : out ∈ outputs) : ∃ c ∈ m.classes, c.emit t o = .ok out :=
    List.mem_map.mp (houtputs ▸ List.mem_map_of_mem hout)
  have houtput (c : ClassDecl) (hc : c ∈ m.classes) : ∃ out ∈ outputs, .ok out = c.emit t o :=
    List.mem_map.mp (houtputs ▸ List.mem_map_of_mem hc)
  refine ⟨m.required outputs, requires_eq hassemble hclass, fun n => mem_required.trans ?_⟩
  refine and_congr_left fun _ => ⟨fun ⟨out, hout, hn⟩ => ?_, fun ⟨c, hc, hn⟩ => ?_⟩
  · obtain ⟨c, hc, hemit⟩ := hclass out hout
    exact ⟨c, hc, ClassDecl.needed_eq (ClassDecl.dependencies_of_emit hemit) ▸ hn⟩
  · obtain ⟨out, hout, hemit⟩ := houtput c hc
    rw [ClassDecl.needed_eq (ClassDecl.dependencies_of_emit hemit.symm)] at hn
    exact ⟨out, hout, hn⟩

end Module

/-! ### Reports and compilations -/

namespace Program

variable {p : Program} {t : SymbolTable} {o : Options}

/-- A report on a program lists for each class its dependencies. -/
theorem lists_iff (hdistinct : (p.classes.map (·.name)).Nodup) {c : ClassDecl} (hc : c ∈ p.classes) (n : Name) :
    DependencyReport.Lists (.ofList (p.classes.map (·.entry t o))) c n ↔ n ∈ c.needed t o := by
  have hentry : OrderedMap.get? (.ofList (p.classes.map (·.entry t o))) c.name.text =
      some (c.needed t o) := by
    rw [OrderedMap.get?_eq_some, entries_report hdistinct]
    exact List.mem_map_of_mem hc
  rw [DependencyReport.Lists, hentry]
  simp

/-- The entries for the classes of some modules are those of the whole with their keys. -/
theorem entries_part (hdistinct : (p.classes.map (·.name)).Nodup) (name : Name) :
    (OrderedMap.ofList ((p.classesOf (some name)).map (·.entry t o))).entries =
      (OrderedMap.ofList (p.classes.map (·.entry t o))).entries.filter fun e =>
        decide (∃ m ∈ p.modules, m.name = name ∧ e.1 ∈ m.classes.map (·.name.text)) := by
  have hpart := p.classesOf_sublist (some name)
  have hkeys := OrderedMap.distinct (.ofList (p.classes.map (·.entry t o)))
  rw [entries_report hdistinct] at hkeys ⊢
  rw [entries_report ((hpart.map _).nodup hdistinct),
    ← filter_keys_of_sublist (hpart.map (·.entry t o)) hkeys]
  exact List.filter_congr fun e _ => decide_eq_decide.mpr mem_keys_classesOf

/-- What keeps classes from having their dependencies keeps them from being emitted. -/
theorem failures_dependencies_sublist (ht : SymbolTable.ofProgram p o.nameStyle = .ok t) :
    (failures (p.classes.map (·.dependencies t o))).Sublist (p.modules.flatMap (·.faults t o)) := by
  have hemitted : (failures (p.classes.map (·.dependencies t o))).Sublist
      (failures (p.classes.map (·.emit t o))) := by
    refine failures_sublist fun c hc e he => ?_
    have hdeclared : Declaration.ofClass c ∈ p.declarations :=
      List.mem_append_right _ (List.mem_map_of_mem hc)
    exact ClassDecl.emit_error_of_dependencies (SymbolTable.contains_of_declared ht hdeclared) he
  have hmodules : failures (p.classes.map (·.emit t o)) =
      p.modules.flatMap fun m => failures (m.emitClasses t o) := by
    rw [classes, List.map_flatMap, failures, List.filterMap_flatMap]
    rfl
  refine hemitted.trans (hmodules ▸ List.Sublist.flatMap_right _ fun m _ => ?_)
  rw [Module.failures_emitClasses, Module.faults]
  cases hclasses : m.classes with
  | nil => exact List.nil_sublist _
  | cons c rest => exact List.Sublist.refl _

/-- Without a failure every module has its unit. -/
theorem filter_compiles {ms : List Module} (h : ms.flatMap (·.faults t o) = []) :
    ms.filter (·.compiles t o) = ms := by
  refine List.filter_eq_self.mpr fun m hm => ?_
  obtain ⟨hcompiles, -⟩ | ⟨-, hfailed⟩ := m.compile_cases (t := t) (o := o)
  · exact hcompiles
  · exact absurd (List.flatMap_eq_nil_iff.mp h m hm) (Module.compile_error_ne_nil hfailed)

end Program

/-- **Where the classes of a program have different names and it gets a table, a report fails with
failures of the compilation, in their order. If the compilation has none there is a report, and
each unit requires what the report lists for the classes of its module and the module does not
declare. And the report on the modules of a name consists of the entries for their classes.** -/
theorem reported_as_compiled (p : Program) (o : Options) (t : SymbolTable)
    (hdistinct : (p.classes.map (·.name)).Nodup) (ht : SymbolTable.ofProgram p o.nameStyle = .ok t) :
    ∃ r, p.run o false = .ok r ∧ r.table = t ∧
      (r.errors = [] → ∃ report, p.dependencyReport o none = .ok report ∧
        List.Forall₂ (fun m u => m.RequiresListed t report u) p.modules r.units) ∧
      (∀ errors, p.dependencyReport o none = .error errors → errors.Sublist r.errors) ∧
      ∀ report name, p.dependencyReport o none = .ok report →
        ∃ part, p.dependencyReport o (some name) = .ok part ∧
          part.entries = report.entries.filter fun e =>
            decide (∃ m ∈ p.modules, m.name = name ∧ e.1 ∈ m.classes.map (·.name.text)) := by
  have hrun : p.run o false = .ok (p.compileWith t o) := by
    rw [Program.run_eq, ht]
    rfl
  have hunits := units_of_modules t o p.modules
  have herrors : (p.compileWith t o).errors = p.modules.flatMap (·.faults t o) := failures_of_modules t o p.modules
  refine ⟨p.compileWith t o, hrun, rfl, fun hnone => ?_, fun errors herror => ?_, fun report name hreport => ?_⟩
  · rw [hnone] at herrors
    have hfailures := p.failures_dependencies_sublist ht
    rw [← herrors, List.sublist_nil] at hfailures
    refine ⟨_, Program.exists_report ht (ClassDecl.dependencies_of_failures hfailures) none, ?_⟩
    rw [Program.classesOf_none]
    rw [Program.filter_compiles herrors.symm] at hunits
    have hmembers := (List.forall₂_and_left ..).mpr ⟨fun m (hm : m ∈ p.modules) => hm, hunits⟩
    refine hmembers.imp fun m u ⟨hm, hassembles⟩ => ?_
    obtain ⟨names, hrequires, hmem⟩ := hassembles.requires
    refine ⟨hassembles.module, names.names, names.ascending, hrequires, fun n => ?_⟩
    -- the unit and the report have the dependencies of the same classes
    rw [← Module.not_mem_owned]
    refine (hmem n).trans (and_congr_left fun _ => exists_congr fun c => and_congr_right fun hc => ?_)
    exact (Program.lists_iff hdistinct (List.mem_flatMap.mpr ⟨m, hm, hc⟩) n).symm
  · obtain ⟨-, hreport⟩ | ⟨-, hreport⟩ := Program.dependencyReport_cases ht none
    · cases herror.symm.trans hreport
    · obtain rfl := Except.error.inj (herror.symm.trans hreport)
      rw [Program.classesOf_none, herrors]
      exact p.failures_dependencies_sublist ht
  · obtain ⟨hall, hwhole⟩ | ⟨-, hwhole⟩ := Program.dependencyReport_cases ht none
    · obtain rfl := Except.ok.inj (hreport.symm.trans hwhole)
      rw [Program.classesOf_none] at hall ⊢
      exact ⟨_, Program.exists_report ht hall (some name), Program.entries_part hdistinct name⟩
    · cases hreport.symm.trans hwhole

/-- The application of the workshop is reported to need what its unit requires, and a report on the
tools has the entries of the tools and their helper. Of the two failures of the patchwork a report
has the one that is about a dependency. -/
theorem workshop_and_patchwork_reported :
    (workshop.classes.map (·.name)).Nodup ∧ (patchwork.classes.map (·.name)).Nodup ∧
      (∃ t r report part, SymbolTable.ofProgram workshop .dotted = .ok t ∧ workshop.run {} false = .ok r ∧
        r.errors = [] ∧ workshop.dependencyReport {} none = .ok report ∧
        report.entries.map (fun e => (e.1, e.2.names)) = [("lib.Tools", []), ("lib.Helper", []),
          ("app.Main", [⟨"core.Application"⟩, ⟨"lib.Helper"⟩, ⟨"lib.Tools"⟩])] ∧
        List.Forall₂ (fun m u => m.RequiresListed t report u) workshop.modules r.units ∧
        workshop.dependencyReport {} (some ⟨"lib.Tools"⟩) = .ok part ∧
        part.entries.map (·.1) = ["lib.Tools", "lib.Helper"]) ∧
      ∃ t r errors, SymbolTable.ofProgram patchwork .dotted = .ok t ∧ patchwork.run {} false = .ok r ∧
        patchwork.dependencyReport {} none = .error errors ∧ errors.Sublist r.errors ∧
        errors = [.unresolvedSymbol ⟨"app.Missing"⟩ ⟨"app.Part"⟩ none] ∧ r.errors.length = 2 := by
  have hworkshop : (workshop.classes.map (·.name)).Nodup := by decide
  have hpatchwork : (patchwork.classes.map (·.name)).Nodup := by decide
  refine ⟨hworkshop, hpatchwork, ?_, ?_⟩
  · obtain ⟨r, hrun, -, hunits, -, hpart⟩ := reported_as_compiled workshop {} _ hworkshop rfl
    obtain rfl := Except.ok.inj hrun
    obtain ⟨report, hreport, hunits⟩ := hunits (by decide +kernel)
    obtain ⟨part, hpart, -⟩ := hpart report ⟨"lib.Tools"⟩ hreport
    obtain rfl := Except.ok.inj hreport
    obtain rfl := Except.ok.inj hpart
    exact ⟨_, _, _, _, rfl, rfl, by decide +kernel, rfl, by decide +kernel, hunits, rfl, by decide +kernel⟩
  · obtain ⟨r, hrun, -, -, herrors, -⟩ := reported_as_compiled patchwork {} _ hpatchwork rfl
    obtain rfl := Except.ok.inj hrun
    exact ⟨_, _, _, rfl, rfl, rfl, herrors _ rfl, by decide +kernel, by decide +kernel⟩

end Lowering
