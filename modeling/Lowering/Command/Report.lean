import Lowering.Command
import Lowering.Diagnostic

/-! What a command says.

Results are printed on one stream; diagnostics and how the command ended on another. A
failure is one line, the last that is printed, and a cause that others tell stands open
at the end of its line. -/
namespace Lowering

/-- Why a command fails. -/
inductive Failure where
  /-- The arguments make no command. -/
  | usage
  | unknownLogFormat (word : String)
  | unknownLogLevel (word : String)
  | unreadableConfig (path : Path)
  | malformedConfig (path : Path)
  | invalidOptions (cause : OptionsError)
  | unreadableProgram (path : Path)
  | malformedProgram (path : Path)
  | unknownModule (name : Name)
  /-- A directory for units cannot be made. -/
  | missingDirectory (path : Path)
  | unwritableUnit (path : Path)
  /-- Failures of compilation, as many as are reported. -/
  | faulty (action : Action) (errors : Nat)
  /-- A diagnostic has no place to stand. -/
  | splitCharacter (place : SplitCharacter)
deriving DecidableEq, Repr

def Action.word : Action → String
  | .build _ => "build"
  | .check => "check"
  | .deps .. => "deps"

namespace Failure

def message : Failure → String
  | usage => "invalid arguments"
  | unknownLogFormat word => "unknown log format: " ++ word
  | unknownLogLevel word => "unknown log level: " ++ word
  | unreadableConfig path => "Failed to read " ++ path.text ++ ":"
  | malformedConfig path => "Failed to parse " ++ path.text ++ ":"
  | invalidOptions cause => "Invalid [emit] options: " ++ cause.message
  | unreadableProgram path => "reading " ++ path.text
  | malformedProgram path => "parsing IR from " ++ path.text
  | unknownModule name => "no module named " ++ name.text
  | missingDirectory path => "creating " ++ path.text
  | unwritableUnit path => "writing " ++ path.text
  | faulty action errors => action.word ++ s!" failed: {errors} error(s)"
  | splitCharacter place => "no label can start at " ++ place.location.text

/-- The last line; a configuration file that cannot be used leaves it open. -/
def text : Failure → String
  | f@(unreadableConfig _) | f@(malformedConfig _) => "Error: " ++ f.message
  | f => "Error: " ++ f.message ++ "\n"

def exitCode : Failure → Nat
  | usage => 2
  | splitCharacter _ => 101
  | _ => 1

end Failure

structure Report where
  /-- The results. -/
  out : String := ""
  /-- Diagnostics and status lines. -/
  notices : String := ""
  failure : Option Failure := none
deriving DecidableEq, Repr, Inhabited

namespace Report

/-- What is printed beside the results. -/
def err (r : Report) : String :=
  r.notices ++ (r.failure.map (·.text)).getD ""

def exitCode (r : Report) : Nat := (r.failure.map (·.exitCode)).getD 0

/-- The report of a run that may have stopped at a failure. -/
def ofExcept : Except Failure Report → Report
  | .ok r => r
  | .error f => { failure := some f }

end Report

end Lowering
