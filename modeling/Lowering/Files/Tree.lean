import Lowering.Files

/-! Files in memory.

A tree has a directory or a file at each of its places, and a place is the list of names
that lead to it from the root. A path is walked name by name, and whatever is walked
through has to be a directory. Files are accessed from a working directory, where
relative paths start.

There are directories and files of text, and nothing else: no links, so that every place has
one path of names; no files of bytes that are no text, which on a disk are there but cannot be
read; and nothing that may not be read or written. -/
namespace Lowering

/-- The names that lead from the root to a directory or a file. -/
abbrev Place := List String

inductive Entry where
  | directory
  | file (text : String)
deriving DecidableEq, Repr, Inhabited

/-- What was put where, the latest first. -/
structure FileTree where
  puts : List (Place × Entry) := []
deriving Repr, Inhabited

namespace FileTree

variable (t : FileTree)

/-- What is at a place; the root is always a directory. -/
def at? (p : Place) : Option Entry :=
  if p = [] then some .directory else t.puts.lookup p

def put (p : Place) (e : Entry) : FileTree := ⟨(p, e) :: t.puts⟩

theorem at?_put {p : Place} (e : Entry) (h : p ≠ []) (q : Place) :
    (t.put p e).at? q = if q = p then some e else t.at? q := by
  unfold at? put
  by_cases hq : q = []
  · rw [if_pos hq, if_pos hq, if_neg (hq ▸ h.symm)]
  · rw [if_neg hq, if_neg hq, List.lookup_cons]
    by_cases hp : q = p
    · rw [hp, if_pos rfl, beq_self_eq_true]
    · rw [if_neg hp, beq_false_of_ne hp]

/-! ### Walking -/

/-- The place that a component leads to. -/
def move (here : Place) (component : String) : Place :=
  if Path.isIdle component then here
  else if component = ".." then here.dropLast
  else here ++ [component]

/-- The place that components lead to through directories. -/
def walk? (here : Place) : List String → Option Place
  | [] => some here
  | component :: rest =>
    if t.at? here = some .directory then walk? (move here component) rest else none

/-- Whether names are short enough and without zero characters. -/
def isSound (p : Path) : Bool :=
  p.text.utf8ByteSize < 4096 && p.components.all fun name =>
    name.utf8ByteSize ≤ 255 && !name.toList.contains '\x00'

/-- Where a path starts. -/
def start (working : Place) (p : Path) : Place := if p.isAbsolute then [] else working

/-- The place that a path leads to, where there need not be anything. -/
def place? (working : Place) (p : Path) : Option Place :=
  if !p.text.isEmpty && isSound p then t.walk? (start working p) p.components else none

/-- What a path leads to. -/
def entry? (working : Place) (p : Path) : Option Entry :=
  (t.place? working p).bind t.at?

def read? (working : Place) (p : Path) : Option String :=
  match t.entry? working p with
  | some (.file text) => some text
  | _ => none

/-! ### Changes -/

/-- The tree with a file, unless a directory is in its place or its path leads nowhere. -/
def write? (working : Place) (p : Path) (text : String) : Option FileTree :=
  match t.place? working p with
  | some place =>
    match t.at? place with
    | some .directory => none
    | _ => some (t.put place (.file text))
  | none => none

/-- The tree with a directory at a place, unless a file is there. -/
def withDir? (p : Place) : Option FileTree :=
  match t.at? p with
  | some .directory => some t
  | some (.file _) => none
  | none => some (t.put p .directory)

/-- The tree with a directory wherever components lead. -/
def withDirs? (t : FileTree) (here : Place) : List String → Option FileTree
  | [] => t.withDir? here
  | component :: rest => do withDirs? (← t.withDir? here) (move here component) rest

def makeDirs? (working : Place) (p : Path) : Option FileTree :=
  if p.text.isEmpty then some t
  else if isSound p then t.withDirs? (start working p) p.components
  else none

/-- The changed tree and that there is one, or else the tree as it was. -/
def orKeep (changed : Option FileTree) : Bool × FileTree := (changed.isSome, changed.getD t)

/-- The files of a tree as they are reached from a working directory. -/
def access (working : Place) : FileAccess (StateM FileTree) where
  isFile p := fun t => ((t.read? working p).isSome, t)
  read? p := fun t => (t.read? working p, t)
  makeDirs p := fun t => t.orKeep (t.makeDirs? working p)
  write p text := fun t => t.orKeep (t.write? working p text)

/-! ### Contents -/

/-- The tree with a file and the directories above it; what cannot be there is left out. -/
def withFile (working : Place) (p : Path) (text : String) : FileTree :=
  (p.parent?.bind (t.makeDirs? working) >>= (write? · working p text)).getD t

/-- The files below a place, each under its path from there. -/
def files (working : Place) : List (Path × String) :=
  (t.puts.map (·.1)).eraseDups.filterMap fun place =>
    match t.at? place with
    | some (.file text) =>
      if working.isPrefixOf place then some (⟨"/".intercalate (place.drop working.length)⟩, text)
      else none
    | _ => none

end FileTree

end Lowering
