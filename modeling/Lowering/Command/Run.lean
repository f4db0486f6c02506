import Lowering.Command.Arguments
import Lowering.Command.Report
import Lowering.Dependency.Report
import Lowering.Diagnostic.Render
import Lowering.Files

/-! Running commands.

Every command reads its configuration, then its program. A build writes the modules that
compile, in the order of the program, and stops at the first that cannot be written; then
it tells about those that do not compile. The other commands write nothing. Diagnostics
quote the sources of the program's modules, which are found from the directory of the
program's file; those that cannot be read are done without. -/
namespace Lowering

/-! ### What files say -/

/-- The configuration that a file holds. -/
def Config.ofFile (path : Path) : Option String → Except Failure Config
  | none => .error (.unreadableConfig path)
  | some text =>
    match Config.parse text with
    | .ok config => .ok config
    | .error .malformed => .error (.malformedConfig path)
    | .error (.invalid cause) => .error (.invalidOptions cause)

/-- The program that a file holds. -/
def Program.ofFile (path : Path) : Option String → Except Failure Program
  | none => .error (.unreadableProgram path)
  | some text =>
    match Program.parse? text with
    | some p => .ok p
    | none => .error (.malformedProgram path)

/-- The name of the configuration that is looked for. -/
def configName : Path := ⟨"kestrel.toml"⟩

/-! ### What commands say -/

/-- The diagnostics of failures, one after the other, and what keeps the next one from being told:
it has no place to stand. -/
def diagnosticsText (s : Sources) : List Error → String × Option Failure
  | [] => ("", none)
  | e :: rest =>
    match e.diagnostic s with
    | .ok d =>
      let (text, stopped) := diagnosticsText s rest
      (d.render s ++ text, stopped)
    | .error place => ("", some (.splitCharacter place))

/-- The report of a command whose program has failures: diagnostics, then a status. A diagnostic
that cannot be told ends the command behind those before it. -/
def Report.faulty (action : Action) (errors : List Error) (status : String) (s : Sources) : Report :=
  match diagnosticsText s errors with
  | (text, none) => { notices := text ++ status, failure := some (.faulty action errors.length) }
  | (text, some stopped) => { notices := text, failure := some stopped }

/-- The status of a build that leaves modules out. -/
def partStatus (c : Compilation) : String :=
  s!"Built {c.units.length} module(s); {c.errors.length} error(s)\n"

/-- The status of a build of all modules. -/
def wholeStatus (c : Compilation) (outDir : Path) : String :=
  s!"Built {c.units.length} module(s) into {outDir.text}\n"

def checkStatus (c : Compilation) : String := s!"{c.units.length} module(s) OK\n"

/-- Refuses the name of a module that the program does not have. -/
def Program.checkModule (p : Program) : Option Name → Except Failure Unit
  | none => .ok ()
  | some name =>
    if p.modules.any (·.name = name) then .ok () else .error (.unknownModule name)

namespace Command

variable {m : Type → Type} [Monad m] (files : FileAccess m) (working : Path)

/-- A step that may fail without any effect. -/
def decided {α : Type} (result : Except Failure α) : ExceptT Failure m α :=
  ExceptT.mk (pure result)

/-- An effect that has to succeed. -/
def demand (failure : Failure) (effect : m Bool) : ExceptT Failure m Unit := do
  if ← effect then return else throw failure

/-! ### Reading -/

def readConfig (path : Path) : ExceptT Failure m Config := do
  decided (Config.ofFile path (← files.read? path))

/-- The configuration to use: the one that is named, or the one in the working directory,
or that without any settings. -/
def findConfig (named : Option Path) : ExceptT Failure m Config := do
  match named with
  | some path => readConfig files path
  | none =>
    if ← files.isFile (working.join configName) then readConfig files (working.join configName)
    else return {}

def readProgram (path : Path) : ExceptT Failure m Program := do
  decided (Program.ofFile path (← files.read? path))

/-- The source file of a module, if it can be read. -/
def readSource (root : Path) (source : String) : m (Option SourceFile) := do
  return (← files.read? (root.join ⟨source⟩)).map (⟨source, ·⟩)

/-- The sources of a program that is read from `input`, as far as they can be read. -/
def readSources (input : Path) (p : Program) : m Sources := do
  let found ← (p.modules.filterMap (·.source)).mapM (readSource files (input.parent?.getD ⟨"."⟩))
  return found.filterMap id

/-- The report of a command whose program has failures. -/
def faulty (c : Command) (p : Program) (errors : List Error) (status : String) :
    ExceptT Failure m Report := do
  let sources : Sources ← ExceptT.lift (readSources files c.input p)
  return Report.faulty c.action errors status sources

/-! ### Writing -/

/-- Writes a unit below a directory. -/
def writeUnit (outDir : Path) (unit : LoadUnit) : ExceptT Failure m Unit := do
  let path := outDir.join unit.path
  match path.parent? with
  | some parent => demand (.missingDirectory parent) (files.makeDirs parent)
  | none => pure ()
  demand (.unwritableUnit path) (files.write path unit.text)

/-! ### The commands -/

def build (c : Command) (overrides : Overrides) : ExceptT Failure m Report := do
  let config := overrides.apply (← findConfig files working c.config)
  let p ← readProgram files c.input
  match p.run config.options false with
  | .error errors => faulty files c p errors ""
  | .ok result =>
    result.units.forM (writeUnit files config.outDir)
    if result.errors.isEmpty then return { notices := wholeStatus result config.outDir }
    else faulty files c p result.errors (partStatus result)

def check (c : Command) : ExceptT Failure m Report := do
  let config ← findConfig files working c.config
  let p ← readProgram files c.input
  match p.compile config.options false with
  | .error errors => faulty files c p errors ""
  | .ok result => return { notices := checkStatus result }

def deps (c : Command) (only : Option Name) (asJson : Bool) : ExceptT Failure m Report := do
  let config ← findConfig files working c.config
  let p ← readProgram files c.input
  decided (p.checkModule only)
  match p.dependencyReport config.options only with
  | .error errors => faulty files c p errors ""
  | .ok report => return { out := if asJson then report.json else report.text }

def run (c : Command) : m Report := do
  let result := match c.action with
    | .build overrides => build files working c overrides
    | .check => check files working c
    | .deps only asJson => deps files working c only asJson
  return .ofExcept (← result.run)

end Command

/-! ### Invocations -/

/-- Checks what is set for all commands. -/
def Invocation.validate (i : Invocation) : Except Failure Unit :=
  if !isOneOf logFormats i.logFormat then .error (.unknownLogFormat i.logFormat)
  else if !isOneOf logLevels i.logLevel then .error (.unknownLogLevel i.logLevel)
  else .ok ()

/-- What is printed for the version. -/
def versionText : String := "kestrel 0.2.0\n"

/-- Runs the command that arguments ask for. -/
def runArguments {m : Type → Type} [Monad m] (files : FileAccess m) (working : Path)
    (arguments : List String) : m Report :=
  match Invocation.parse arguments with
  | .error .mistake => return { failure := some .usage }
  | .error .help => return {}
  | .error .version => return { out := versionText }
  | .ok i =>
    match i.validate with
    | .error f => return { failure := some f }
    | .ok _ => i.command.run files working

end Lowering
