import Lowering.Command.Run

/-! The command line, over the files of the disk. -/
namespace Lowering

/-- Whether an action succeeds. -/
def succeeds (action : IO Unit) : IO Bool := do
  try
    action
    return true
  catch _ => return false

/-- The files of the disk. -/
def disk : FileAccess IO where
  isFile p := succeeds do
    let file ← IO.FS.Handle.mk p.text .read
    discard (file.read 1)
  read? p := do
    try
      return some (← IO.FS.readFile p.text)
    catch _ => return none
  makeDirs p := if p.text.isEmpty then return true else succeeds (IO.FS.createDirAll p.text)
  write p text := succeeds (IO.FS.writeFile p.text text)

end Lowering

/-- Runs a command in the present working directory. -/
def main (arguments : List String) : IO UInt32 := do
  let working ← IO.currentDir
  let report ← Lowering.runArguments Lowering.disk ⟨working.toString⟩ arguments
  IO.print report.out
  IO.eprint report.err
  return report.exitCode.toUInt32
