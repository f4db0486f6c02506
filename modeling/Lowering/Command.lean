import Lowering.Config

/-! Commands.

A program is built into files, checked, or asked for what its classes depend on. Each
command reads one program and may name the configuration to use; one that is not named
is looked for in the working directory. -/
namespace Lowering

/-- What a build sets over its configuration. -/
structure Overrides where
  outDir : Option Path := none
  jobs : Option Nat := none
  nameStyle : Option NameStyle := none
  /-- Leaves out the header comment of modules. -/
  omitHeader : Bool := false
deriving DecidableEq, Repr, Inhabited

/-- The configuration of a build. -/
def Overrides.apply (o : Overrides) (c : Config) : Config where
  outDir := o.outDir.getD c.outDir
  options := { c.options with
    jobs := o.jobs.getD c.options.jobs
    nameStyle := o.nameStyle.getD c.options.nameStyle
    fileOverview := c.options.fileOverview && !o.omitHeader }

inductive Action where
  /-- Writes every module that compiles. -/
  | build (overrides : Overrides)
  /-- Compiles and writes nothing. -/
  | check
  /-- Lists the dependencies of each class, or of those of one module. -/
  | deps (module : Option Name) (asJson : Bool)
deriving DecidableEq, Repr, Inhabited

structure Command where
  action : Action
  /-- The file that holds the program. -/
  input : Path
  config : Option Path := none
deriving DecidableEq, Repr, Inhabited

/-- A command with what is set for all of them. -/
structure Invocation where
  command : Command
  logLevel : String
  logFormat : String
deriving DecidableEq, Repr, Inhabited

/-! ### Logging -/

def logFormats : List String := ["compact", "text", "json"]

def logLevels : List String := ["error", "warn", "warning", "info", "debug", "trace"]

/-- Whether a word is one of some, however its ASCII letters are written. -/
def isOneOf (words : List String) (word : String) : Bool :=
  words.contains (String.ofList (word.toList.map Char.toLower))

end Lowering
