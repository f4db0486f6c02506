/-! Source files.

A text is cut into lines at line feeds. A line keeps its line break and knows at which
byte it starts; after a line break at the end of the text one more, empty, line follows.
Places are counted in bytes of the UTF-8 form. -/
namespace Lowering

/-- How many bytes characters take. -/
def byteLength : List Char → Nat
  | [] => 0
  | c :: rest => c.utf8Size + byteLength rest

/-- A line with its line break. -/
structure SourceLine where
  /-- The byte at which it starts. -/
  start : Nat
  chars : List Char
deriving DecidableEq, Repr, Inhabited

namespace SourceLine

/-- The byte after the line break. -/
def stop (l : SourceLine) : Nat := l.start + byteLength l.chars

/-- The characters that are shown: without the line break and zero bytes at the end. -/
def visible (l : SourceLine) : List Char :=
  (l.chars.reverse.dropWhile fun c => c = '\n' || c = '\r' || c = '\x00').reverse

end SourceLine

/-- A file with its text. -/
structure SourceFile where
  path : String
  text : String
deriving DecidableEq, Repr, Inhabited

/-- The lines of characters, given those of the present line in reverse. -/
def sourceLinesFrom (start : Nat) (present : List Char) : List Char → List SourceLine
  | [] => [⟨start, present.reverse⟩]
  | c :: rest =>
    if c = '\n' then
      let line : SourceLine := ⟨start, (c :: present).reverse⟩
      line :: sourceLinesFrom line.stop [] rest
    else sourceLinesFrom start (c :: present) rest

namespace SourceFile

def lines (f : SourceFile) : List SourceLine := sourceLinesFrom 0 [] f.text.toList

/-- The position of the line that a byte belongs to: the last that starts at or before it. -/
def lineIndexAt (f : SourceFile) (byte : Nat) : Nat :=
  (f.lines.countP fun l => l.start ≤ byte) - 1

end SourceFile

/-- The files that are known, each with its position as id. -/
abbrev Sources := List SourceFile

/-- The id of the file with a path; of two with one path the later one. -/
def Sources.id? (s : Sources) (path : String) : Option Nat :=
  (s.zipIdx.filter fun (f, _) => f.path = path).getLast?.map (·.2)

end Lowering
