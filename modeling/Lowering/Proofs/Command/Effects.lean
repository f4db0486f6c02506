import Lowering.Proofs.Compilation.InOrder
import Lowering.Proofs.Files.Overwriting

/-! What commands do to files.

Every command reads a configuration and a program, which changes nothing (`run_inputs_ok`). A build
goes on to write the units of the modules that compile, whether or not the others do, and nothing
else; the other commands only report (`effects_of_command`).

All of this is about trees of directories and text files (`FileTree`). Through a link a unit could
be written to another place than its path names, and a file that is not text reads as one that is
missing while it is there; neither is part of a tree. -/
namespace Lowering

/-! ### Failing -/

theorem Failure.exitCode_ne_zero (f : Failure) : f.exitCode ≠ 0 := by
  unfold exitCode
  split <;> decide

namespace Report

theorem exitCode_of_error (f : Failure) : (ofExcept (.error f)).exitCode ≠ 0 := f.exitCode_ne_zero

/-- Whatever can be said about failures, a command that has them fails. -/
theorem exitCode_of_faulty (action : Action) (errors : List Error) (status : String) (s : Sources) :
    (ofExcept (.ok (faulty action errors status s))).exitCode ≠ 0 := by
  unfold faulty
  split
  · exact (Failure.faulty action errors.length).exitCode_ne_zero
  next stopped _ => exact stopped.exitCode_ne_zero

end Report

theorem Overrides.apply_none (c : Config) : ({} : Overrides).apply c = c := by
  unfold apply
  rw [Bool.not_false, Bool.and_true]
  rfl

/-! ### Projects -/

/-- A configuration, and a program whose symbols are resolved under it. -/
structure Project where
  config : Config
  program : Program
  table : SymbolTable

namespace Project

variable (j : Project)

/-- The units of the modules that compile, in the order of the program. -/
def units : List LoadUnit := successes (j.program.modules.map (·.compile j.table j.config.options))

/-- Whether all modules compile, with all of their classes. -/
def Compiles : Prop := ∀ m ∈ j.program.modules, m.compiles j.table j.config.options = true

instance : Decidable j.Compiles :=
  inferInstanceAs (Decidable (∀ m ∈ j.program.modules, m.compiles j.table j.config.options = true))

/-- There are no failures exactly when all modules compile. -/
theorem errors_isEmpty_iff :
    (j.program.compileWith j.table j.config.options).errors.isEmpty = true ↔ j.Compiles := by
  have herrors : (j.program.compileWith j.table j.config.options).errors =
      j.program.modules.flatMap (·.faults j.table j.config.options) := failures_of_modules ..
  rw [List.isEmpty_iff, herrors, List.flatMap_eq_nil_iff]
  exact forall₂_congr fun m _ => Module.faults_eq_nil_iff

end Project

namespace FileTree

variable (t : FileTree) (place : Place) (working : Path)

/-- The configuration that is found in a tree: that of the file that is named, or else that of the
file in the working directory, if there is one. -/
def config (named : Option Path) : Except Failure Config :=
  match named with
  | some path => Config.ofFile path (t.read? place path)
  | none =>
    match t.read? place (working.join configName) with
    | some text => Config.ofFile (working.join configName) (some text)
    | none => .ok {}

/-- What a command reads. -/
def inputs (c : Command) : Except Failure (Config × Program) := do
  let config ← t.config place working c.config
  let p ← Program.ofFile c.input (t.read? place c.input)
  return (config, p)

/-- The project of a command, unless its configuration is rejected, its program cannot be read or a
symbol is not resolved. -/
def project? (c : Command) (overrides : Overrides) : Option Project := do
  let (config, p) ← (t.inputs place working c).toOption
  let table ← (SymbolTable.ofProgram p (overrides.apply config).options.nameStyle).toOption
  return ⟨overrides.apply config, p, table⟩

/-- What a command reports, and the tree that it leaves. -/
def after (c : Command) : Report × FileTree := (c.run (access place) working).run t

/-- Whether the tree takes all that a build writes. -/
def Takes (c : Command) (overrides : Overrides) : Prop :=
  ∀ j, t.project? place working c overrides = some j →
    (t.writeUnits? place j.config.outDir j.units).isSome

end FileTree

namespace Command

variable {t t' : FileTree} {place : Place} {working : Path} {c : Command}

theorem run_of_ok {α β : Type} {x : ExceptT Failure (StateM FileTree) α} {a : α}
    (h : x.run.run t = (.ok a, t')) (f : α → ExceptT Failure (StateM FileTree) β) :
    (x >>= f).run.run t = (f a).run.run t' := by
  rw [run_bind, h]

theorem run_of_error {α β : Type} {x : ExceptT Failure (StateM FileTree) α} {e : Failure}
    (h : x.run.run t = (.error e, t')) (f : α → ExceptT Failure (StateM FileTree) β) :
    (x >>= f).run.run t = (.error e, t') := by
  rw [run_bind, h]

/-! ### Reading -/

theorem run_readConfig (path : Path) :
    (readConfig (FileTree.access place) path).run.run t = (Config.ofFile path (t.read? place path), t) := rfl

variable (t place) in
theorem run_readProgram (path : Path) :
    (readProgram (FileTree.access place) path).run.run t = (Program.ofFile path (t.read? place path), t) := rfl

variable (t place working) in
theorem run_findConfig (named : Option Path) :
    (findConfig (FileTree.access place) working named).run.run t = (t.config place working named, t) := by
  cases named with
  | some path => exact run_readConfig path
  | none =>
    show ((if (t.read? place (working.join configName)).isSome
        then readConfig (FileTree.access place) (working.join configName) else pure {}) :
        ExceptT Failure (StateM FileTree) Config).run.run t = _
    unfold FileTree.config
    cases hread : t.read? place (working.join configName) with
    | some text => rw [Option.isSome_some, if_pos rfl, run_readConfig, hread]
    | none => rfl

/-- A command that cannot read its configuration or its program ends there. -/
theorem run_inputs_error {α : Type} {e : Failure} (h : t.inputs place working c = .error e)
    (f : Config → Program → ExceptT Failure (StateM FileTree) α) :
    (do
      let config ← findConfig (FileTree.access place) working c.config
      let p ← readProgram (FileTree.access place) c.input
      f config p).run.run t = (.error e, t) := by
  have hconfig := run_findConfig t place working c.config
  obtain hc | ⟨config, hc, hrest⟩ := bind_eq_error.mp h
  · rw [hc] at hconfig
    exact run_of_error hconfig _
  · rw [hc] at hconfig
    have hprogram := run_readProgram t place c.input
    obtain hp | ⟨p, -, hp⟩ := bind_eq_error.mp hrest
    · rw [hp] at hprogram
      exact (run_of_ok hconfig _).trans (run_of_error hprogram _)
    · cases hp

/-- Otherwise it goes on with what it has read, in the same tree. -/
theorem run_inputs_ok {α : Type} {config : Config} {p : Program} (h : t.inputs place working c = .ok (config, p))
    (f : Config → Program → ExceptT Failure (StateM FileTree) α) :
    (do
      let config ← findConfig (FileTree.access place) working c.config
      let p ← readProgram (FileTree.access place) c.input
      f config p).run.run t = (f config p).run.run t := by
  have hconfig := run_findConfig t place working c.config
  have hprogram := run_readProgram t place c.input
  obtain ⟨config', hc, hrest⟩ := bind_eq_ok.mp h
  obtain ⟨p', hp, hpair⟩ := bind_eq_ok.mp hrest
  obtain ⟨rfl, rfl⟩ := Prod.mk.inj (Except.ok.inj hpair)
  rw [hc] at hconfig
  rw [hp] at hprogram
  exact (run_of_ok hconfig _).trans (run_of_ok hprogram _)

/-- Steps that leave the tree leave it together. -/
theorem run_mapM {α β : Type} {f : α → StateM FileTree β} {g : α → β} (h : ∀ a, (f a).run t = (g a, t))
    (as : List α) : (as.mapM f).run t = (as.map g, t) := by
  induction as with
  | nil => rfl
  | cons a rest ih =>
    rw [List.mapM_cons, StateT.run_bind, h]
    show (do
      let (bs, t₁) ← (rest.mapM f).run t
      pure (g a :: bs, t₁)) = _
    rw [ih]
    rfl

variable (t place) in
theorem run_readSources (input : Path) (p : Program) :
    ∃ s, (readSources (FileTree.access place) input p).run t = (s, t) := by
  have hread (root : Path) (source : String) : (readSource (FileTree.access place) root source).run t =
      ((t.read? place (root.join ⟨source⟩)).map (⟨source, ·⟩), t) := rfl
  unfold readSources
  rw [StateT.run_bind, run_mapM (hread _)]
  exact ⟨_, rfl⟩

variable (t place) in
/-- Telling about failures changes nothing, and the command fails. -/
theorem run_faulty (c : Command) (p : Program) (errors : List Error) (status : String) :
    ∃ result, (faulty (FileTree.access place) c p errors status).run.run t = (result, t) ∧
      (Report.ofExcept result).exitCode ≠ 0 := by
  obtain ⟨s, hs⟩ := run_readSources t place c.input p
  have hsources : (ExceptT.lift (readSources (FileTree.access place) c.input p) :
      ExceptT Failure (StateM FileTree) Sources).run.run t = (.ok s, t) := by
    rw [ExceptT.run_lift, StateT.run_map, hs]
    rfl
  exact ⟨_, run_of_ok hsources _, Report.exitCode_of_faulty c.action errors status s⟩

/-! ### Stages -/

/-- Either there is nothing to read, or the symbols are not resolved, or there is a project. -/
theorem project?_cases (t : FileTree) (place : Place) (working : Path) (c : Command) (overrides : Overrides) :
    (∃ e, t.inputs place working c = .error e ∧ t.project? place working c overrides = none) ∨
    (∃ config p errors, t.inputs place working c = .ok (config, p) ∧
      p.run (overrides.apply config).options false = .error errors ∧
      t.project? place working c overrides = none) ∨
    ∃ config p table, t.inputs place working c = .ok (config, p) ∧
      p.run (overrides.apply config).options false = .ok (p.compileWith table (overrides.apply config).options) ∧
      t.project? place working c overrides = some ⟨overrides.apply config, p, table⟩ := by
  unfold FileTree.project?
  cases hinputs : t.inputs place working c with
  | error e => exact .inl ⟨e, rfl, rfl⟩
  | ok inputs =>
    obtain ⟨config, p⟩ := inputs
    have hrun := Program.run_eq (p := p) (o := (overrides.apply config).options)
    cases htable : SymbolTable.ofProgram p (overrides.apply config).options.nameStyle with
    | error errors =>
      rw [htable] at hrun
      refine .inr (.inl ⟨config, p, errors, rfl, hrun, ?_⟩)
      show ((SymbolTable.ofProgram p (overrides.apply config).options.nameStyle).toOption.bind _) = none
      rw [htable]
      rfl
    | ok table =>
      rw [htable] at hrun
      refine .inr (.inr ⟨config, p, table, rfl, hrun, ?_⟩)
      show ((SymbolTable.ofProgram p (overrides.apply config).options.nameStyle).toOption.bind _) = _
      rw [htable]
      rfl

/-- A build that has written its units succeeds if there is no failure to tell about. -/
theorem run_ending (t : FileTree) (place : Place) (c : Command) (p : Program) (r : Compilation) (outDir : Path) :
    ∃ result, ((if r.errors.isEmpty then return { notices := wholeStatus r outDir }
        else faulty (FileTree.access place) c p r.errors (partStatus r)) :
        ExceptT Failure (StateM FileTree) Report).run.run t = (result, t) ∧
      ((Report.ofExcept result).exitCode = 0 ↔ r.errors.isEmpty = true) := by
  cases r.errors.isEmpty with
  | true => exact ⟨_, rfl, iff_of_true rfl rfl⟩
  | false =>
    obtain ⟨result, hfaulty, hexit⟩ := run_faulty t place c p r.errors (partStatus r)
    exact ⟨result, hfaulty, iff_of_false hexit Bool.false_ne_true⟩

/-- Without a project a build fails and writes nothing; otherwise, if the tree takes the units, they
are written, and the build succeeds exactly when all modules have compiled. -/
theorem build_cases (t : FileTree) (place : Place) (working : Path) (c : Command) (overrides : Overrides) :
    (t.project? place working c overrides = none ∧
      ∃ result, (build (FileTree.access place) working c overrides).run.run t = (result, t) ∧
        (Report.ofExcept result).exitCode ≠ 0) ∨
    ∃ j, t.project? place working c overrides = some j ∧
      ∀ t', t.writeUnits? place j.config.outDir j.units = some t' →
        ∃ result, (build (FileTree.access place) working c overrides).run.run t = (result, t') ∧
          ((Report.ofExcept result).exitCode = 0 ↔ j.Compiles) := by
  unfold build
  obtain ⟨e, hinputs, hproject⟩ | ⟨config, p, errors, hinputs, hrun, hproject⟩ |
    ⟨config, p, table, hinputs, hrun, hproject⟩ := project?_cases t place working c overrides
  · exact .inl ⟨hproject, _, run_inputs_error hinputs _, Report.exitCode_of_error e⟩
  · refine .inl ⟨hproject, ?_⟩
    rw [run_inputs_ok hinputs, hrun]
    exact run_faulty t place c p errors ""
  · refine .inr ⟨_, hproject, fun t' hwritten => ?_⟩
    rw [run_inputs_ok hinputs, hrun]
    obtain ⟨result, hend, hexit⟩ := run_ending t' place c p
      (p.compileWith table (overrides.apply config).options) (overrides.apply config).outDir
    exact ⟨result, (run_of_ok (writeUnits_run_iff.mpr hwritten) _).trans hend,
      hexit.trans (Project.errors_isEmpty_iff ⟨overrides.apply config, p, table⟩)⟩

/-- A check writes nothing, and it succeeds where a build without overrides would. -/
theorem check_cases (t : FileTree) (place : Place) (working : Path) (c : Command) :
    ∃ result, (check (FileTree.access place) working c).run.run t = (result, t) ∧
      ((Report.ofExcept result).exitCode = 0 ↔ ∃ j, t.project? place working c {} = some j ∧ j.Compiles) := by
  unfold check
  obtain ⟨e, hinputs, hproject⟩ | ⟨config, p, errors, hinputs, hrun, hproject⟩ |
    ⟨config, p, table, hinputs, hrun, hproject⟩ := project?_cases t place working c {}
  · refine ⟨_, run_inputs_error hinputs _, ?_⟩
    rw [hproject]
    exact iff_of_false (Report.exitCode_of_error e) nofun
  · rw [Overrides.apply_none] at hrun
    rw [run_inputs_ok hinputs, Program.compile_of_run_error hrun, hproject]
    obtain ⟨result, hfaulty, hexit⟩ := run_faulty t place c p errors ""
    exact ⟨result, hfaulty, iff_of_false hexit nofun⟩
  · rw [Overrides.apply_none] at hrun hproject
    have hcompiles : (∃ j, t.project? place working c {} = some j ∧ j.Compiles) ↔
        (p.compileWith table config.options).errors.isEmpty = true := by
      rw [Project.errors_isEmpty_iff ⟨config, p, table⟩, hproject]
      simp only [Option.some.injEq, exists_eq_left']
    rw [run_inputs_ok hinputs, Program.compile_of_run hrun, hcompiles]
    cases (p.compileWith table config.options).errors.isEmpty with
    | true => exact ⟨_, rfl, iff_of_true rfl rfl⟩
    | false =>
      obtain ⟨result, hfaulty, hexit⟩ :=
        run_faulty t place c p (p.compileWith table config.options).errors ""
      exact ⟨result, hfaulty, iff_of_false hexit Bool.false_ne_true⟩

/-- Listing dependencies writes nothing. -/
theorem deps_cases (t : FileTree) (place : Place) (working : Path) (c : Command) (only : Option Name)
    (asJson : Bool) :
    ∃ result, (deps (FileTree.access place) working c only asJson).run.run t = (result, t) := by
  unfold deps
  cases hinputs : t.inputs place working c with
  | error e => exact ⟨_, run_inputs_error hinputs _⟩
  | ok inputs =>
    obtain ⟨config, p⟩ := inputs
    rw [run_inputs_ok hinputs]
    cases hmodule : p.checkModule only with
    | error e => exact ⟨.error e, rfl⟩
    | ok =>
      cases p.dependencyReport config.options only with
      | error errors =>
        obtain ⟨result, hfaulty, -⟩ := run_faulty t place c p errors ""
        exact ⟨result, hfaulty⟩
      | ok report => exact ⟨_, rfl⟩

end Command

/-! ### What is left -/

namespace FileTree

variable {t t' : FileTree} {place : Place} {working : Path} {c : Command}

/-- A command reports how its action ends, and leaves the tree of its action. -/
theorem after_eq {result : Except Failure Report} (h : (match c.action with
      | .build overrides => c.build (access place) working overrides
      | .check => c.check (access place) working
      | .deps only asJson => c.deps (access place) working only asJson).run.run t = (result, t')) :
    t.after place working c = (.ofExcept result, t') :=
  congrArg (Prod.map Report.ofExcept id) h

/-- A build without a project changes nothing and fails. -/
theorem after_build_of_none {overrides : Overrides} (haction : c.action = .build overrides)
    (h : t.project? place working c overrides = none) :
    (t.after place working c).2 = t ∧ (t.after place working c).1.exitCode ≠ 0 := by
  obtain ⟨-, result, hrun, hexit⟩ | ⟨j, hproject, -⟩ := Command.build_cases t place working c overrides
  · rw [after_eq (by rw [haction]; exact hrun)]
    exact ⟨rfl, hexit⟩
  · cases h.symm.trans hproject

/-- A build with a project leaves the units that compile. -/
theorem after_build_of_some {overrides : Overrides} {j : Project} (haction : c.action = .build overrides)
    (h : t.project? place working c overrides = some j) (htakes : t.Takes place working c overrides) :
    t.Written (t.after place working c).2 place j.config.outDir j.units ∧
      ((t.after place working c).1.exitCode = 0 ↔ j.Compiles) := by
  obtain ⟨hproject, -⟩ | ⟨j', hproject, hwrites⟩ := Command.build_cases t place working c overrides
  · cases h.symm.trans hproject
  · obtain rfl := Option.some.inj (h.symm.trans hproject)
    obtain ⟨t', hwritten⟩ := Option.isSome_iff_exists.mp (htakes j h)
    obtain ⟨result, hrun, hexit⟩ := hwrites t' hwritten
    rw [after_eq (by rw [haction]; exact hrun)]
    exact ⟨written_of_writeUnits? hwritten, hexit⟩

/-- Checking changes nothing, and fails where a build without overrides would. -/
theorem after_check (haction : c.action = .check) :
    (t.after place working c).2 = t ∧
      (t.Takes place working c {} → ((t.after place working c).1.exitCode = 0 ↔
        (t.after place working { c with action := .build {} }).1.exitCode = 0)) := by
  obtain ⟨result, hrun, hexit⟩ := Command.check_cases t place working c
  rw [after_eq (by rw [haction]; exact hrun)]
  refine ⟨rfl, fun htakes => hexit.trans ?_⟩
  cases hproject : t.project? place working c {} with
  | none =>
    obtain ⟨-, hfails⟩ := after_build_of_none (c := { c with action := .build {} }) rfl hproject
    exact iff_of_false nofun hfails
  | some j =>
    obtain ⟨-, hbuild⟩ := after_build_of_some (c := { c with action := .build {} }) rfl hproject htakes
    rw [hbuild]
    simp only [Option.some.injEq, exists_eq_left']

theorem after_deps {only : Option Name} {asJson : Bool} (haction : c.action = .deps only asJson) :
    (t.after place working c).2 = t := by
  obtain ⟨result, hrun⟩ := Command.deps_cases t place working c only asJson
  rw [after_eq (by rw [haction]; exact hrun)]

end FileTree

/-- **Whatever a tree of files holds, a build whose configuration is rejected, whose program cannot be
read or whose symbols are not resolved fails and leaves the tree as it is. Any other writes the units
of the modules that compile, the last one at each place, and changes nothing else but for new
directories, if only the tree takes what is written; and it succeeds exactly when all modules compile.
Checks and lists of dependencies leave the tree as it is, and a check succeeds exactly when a build
without overrides would.** -/
theorem effects_of_command (c : Command) (working : Path) (place : Place) (t : FileTree) :
    match c.action with
    | .build overrides =>
      (t.project? place working c overrides = none →
        (t.after place working c).2 = t ∧ (t.after place working c).1.exitCode ≠ 0) ∧
      ∀ j, t.project? place working c overrides = some j → t.Takes place working c overrides →
        t.Written (t.after place working c).2 place j.config.outDir j.units ∧
          ((t.after place working c).1.exitCode = 0 ↔ j.Compiles)
    | .check =>
      (t.after place working c).2 = t ∧
        (t.Takes place working c {} → ((t.after place working c).1.exitCode = 0 ↔
          (t.after place working { c with action := .build {} }).1.exitCode = 0))
    | .deps _ _ => (t.after place working c).2 = t := by
  split
  next haction =>
    exact ⟨FileTree.after_build_of_none haction, fun _ => FileTree.after_build_of_some haction⟩
  next haction => exact FileTree.after_check haction
  next haction => exact FileTree.after_deps haction

/-- A program of three modules in a tree that it was built in before. The second module is empty, and
the others have one name, and so one file. -/
def halfBuilt : FileTree where
  puts := [
    (["home", "dist", "ui", "Box.js"], .file "stale"),
    (["home", "dist", "ui"], .directory),
    (["home", "dist"], .directory),
    (["home", "ir.json"], .file ("\x7b\"modules\":[" ++
      "\x7b\"name\":\"ui.Box\",\"classes\":[\x7b\"name\":\"ui.Box\"\x7d]\x7d," ++
      "\x7b\"name\":\"ui.Gap\"\x7d," ++
      "\x7b\"name\":\"ui.Box\",\"classes\":[\x7b\"name\":\"ui.Lid\"\x7d]\x7d]\x7d")),
    (["home"], .directory)]

/-- The build that is repeated. -/
def rebuild : Command where
  action := .build {}
  input := ⟨"ir.json"⟩

/-- Building again replaces the stale file by that of the last module, and the build fails because of
the empty one, as a check does. Without its program nothing is touched. -/
theorem halfBuilt_effects :
    (∃ j, halfBuilt.project? ["home"] ⟨"/home"⟩ rebuild {} = some j ∧
      halfBuilt.Takes ["home"] ⟨"/home"⟩ rebuild {} ∧
      j.config.outDir = ⟨"dist"⟩ ∧ j.units.map (·.path) = [⟨"ui/Box.js"⟩, ⟨"ui/Box.js"⟩] ∧
      halfBuilt.Written (halfBuilt.after ["home"] ⟨"/home"⟩ rebuild).2 ["home"] ⟨"dist"⟩ j.units ∧
      (halfBuilt.after ["home"] ⟨"/home"⟩ rebuild).1.exitCode ≠ 0 ∧
      (halfBuilt.after ["home"] ⟨"/home"⟩ { rebuild with action := .check }).1.exitCode ≠ 0) ∧
    halfBuilt.project? ["home"] ⟨"/home"⟩ { rebuild with input := ⟨"gone.json"⟩ } {} = none ∧
    (halfBuilt.after ["home"] ⟨"/home"⟩ { rebuild with input := ⟨"gone.json"⟩ }).2 = halfBuilt := by
  have hproject : ∃ j ∈ halfBuilt.project? ["home"] ⟨"/home"⟩ rebuild {},
      (halfBuilt.writeUnits? ["home"] j.config.outDir j.units).isSome ∧ j.config.outDir = ⟨"dist"⟩ ∧
        j.units.map (·.path) = [⟨"ui/Box.js"⟩, ⟨"ui/Box.js"⟩] ∧ ¬j.Compiles := by
    decide +kernel
  obtain ⟨j, hj, hwritten, houtDir, hpaths, hempty⟩ := hproject
  have htakes : halfBuilt.Takes ["home"] ⟨"/home"⟩ rebuild {} := fun j' hj' => by
    obtain rfl := Option.some.inj (hj.symm.trans hj')
    exact hwritten
  obtain ⟨-, hbuild⟩ := effects_of_command rebuild ⟨"/home"⟩ ["home"] halfBuilt
  obtain ⟨hleft, hexit⟩ := hbuild j hj htakes
  obtain ⟨-, hcheck⟩ := effects_of_command { rebuild with action := .check } ⟨"/home"⟩ ["home"] halfBuilt
  have hfails : (halfBuilt.after ["home"] ⟨"/home"⟩ rebuild).1.exitCode ≠ 0 := fun h => hempty (hexit.mp h)
  have hgone :
      halfBuilt.project? ["home"] ⟨"/home"⟩ { rebuild with input := ⟨"gone.json"⟩ } {} = none := rfl
  obtain ⟨hnone, -⟩ :=
    effects_of_command { rebuild with input := ⟨"gone.json"⟩ } ⟨"/home"⟩ ["home"] halfBuilt
  rw [houtDir] at hleft
  exact ⟨⟨j, hj, htakes, houtDir, hpaths, hleft, hfails, fun h => hfails ((hcheck htakes).mp h)⟩, hgone,
    (hnone hgone).1⟩

end Lowering
