import Lowering.Path

/-! Access to files.

What a command asks of the files around it, in any monad: the files of a disk are one
instance, and a tree that is held in memory is another. -/
namespace Lowering

structure FileAccess (m : Type → Type) where
  /-- Whether a path leads to a file. -/
  isFile : Path → m Bool
  /-- The text of a file, if there is one that holds text. -/
  read? : Path → m (Option String)
  /-- Makes a directory and those above it; whether it is there afterwards. The empty
  path asks for nothing. -/
  makeDirs : Path → m Bool
  /-- Sets the text of a file, which may be new; whether that succeeds. -/
  write : Path → String → m Bool

end Lowering
