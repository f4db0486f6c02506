import Lowering.Diagnostic
import Lowering.Text.Columns
import Lowering.Text.Lines

/-! Diagnostics as text.

Under a header stands a block for each file with labels: where it is, then each labelled
line of the source with marks below the labelled characters, one at least, and the
remark. Notes come last. Line numbers are set flush right in a margin that is as wide as
the widest of them. -/
namespace Lowering

/-- A label with the line it stands on. -/
structure Mark where
  label : Label
  file : SourceFile
  /-- The position of the line in its file. -/
  index : Nat
  line : SourceLine
deriving DecidableEq, Repr, Inhabited

def Label.mark? (l : Label) (s : Sources) : Option Mark := do
  let file ← s[l.file]?
  let index := file.lineIndexAt l.start
  return ⟨l, file, index, ← file.lines[index]?⟩

def blanks (n : Nat) : String := String.ofList (List.replicate n ' ')

namespace Mark

variable (m : Mark)

/-- The line number, counted from one. -/
def number : Nat := m.index + 1

/-- How many characters end within a number of bytes. -/
def charsWithin : (bytes : Nat) → List Char → Nat
  | _, [] => 0
  | bytes, c :: rest => if c.utf8Size ≤ bytes then charsWithin (bytes - c.utf8Size) rest + 1 else 0

/-- The column of the label, counted in characters from one. -/
def column : Nat := charsWithin (m.label.start - m.line.start) m.line.chars + 1

/-- The character that marks the label. -/
def caret : Char :=
  match m.label.style with
  | .primary => '^'
  | .secondary => '-'

/-- Where the marks end, counted in bytes of the line. -/
def stop : Nat := Nat.max (m.label.stop - m.line.start) (m.label.start - m.line.start + 1)

/-- The marks below characters that start at a byte and a column of the line. -/
def caretsFrom (byte column : Nat) : List Char → List Char
  | [] => caretsAt byte 1 1
  | c :: rest =>
    let width := Text.columns column c
    caretsAt byte c.utf8Size width ++ caretsFrom (byte + c.utf8Size) (column + width) rest
where
  /-- The marks below one character. -/
  caretsAt (byte size width : Nat) : List Char :=
    if Nat.max byte (m.label.start - m.line.start) < Nat.min (byte + size) m.stop then
      List.replicate width m.caret
    else if byte < m.stop then List.replicate width ' '
    else []

/-- The source line as it is shown from a column on. -/
def shownFrom (column : Nat) : List Char → List Char
  | [] => []
  | c :: rest => Text.shown column c ++ shownFrom (column + Text.columns column c) rest

/-- The two lines of a mark. -/
def text (margin : Nat) : String :=
  let number := m.number.repr
  blanks (margin - number.length) ++ number ++ " │ " ++
    String.ofList (shownFrom 0 m.line.visible) ++ "\n" ++
    blanks margin ++ " │ " ++ String.ofList (m.caretsFrom 0 0 m.line.visible) ++ " " ++
    m.label.message ++ "\n"

/-- Where the block of a file starts. -/
def locus (margin : Nat) : String :=
  s!"{blanks margin} ┌─ {m.file.path}:{m.number}:{m.column}\n"

end Mark

namespace Diagnostic

variable (d : Diagnostic)

def marks (s : Sources) : List Mark := d.labels.filterMap (·.mark? s)

/-- Marks by file, in the order in which the files come first. -/
def byFile (ms : List Mark) : List (List Mark) :=
  (ms.map (·.label.file)).eraseDups.map fun id => ms.filter (·.label.file = id)

/-- An empty line of a block. -/
def rule (margin : Nat) : String := blanks margin ++ " │\n"

/-- The block of a file: the mark that came first tells where it is. -/
def block (margin : Nat) (ms : List Mark) : String :=
  let ordered := ms.mergeSort fun a b => a.index ≤ b.index
  String.join (ms.head?.toList.map (·.locus margin)) ++ rule margin ++
    String.join (ordered.map (·.text margin))

/-- The lines of a note. -/
def note (margin : Nat) (text : String) : String :=
  match Text.lines text with
  | [] => ""
  | first :: rest =>
    String.join ((blanks margin ++ " = " ++ first ++ "\n") ::
      rest.map fun line => blanks margin ++ "   " ++ line ++ "\n")

/-- The diagnostic as it is shown. -/
def render (s : Sources) : String :=
  let marks := d.marks s
  let margin := (marks.map (·.number.repr.length)).foldl Nat.max 0
  let blocks := (rule margin).intercalate ((byFile marks).map (block margin))
  let separator := if marks.isEmpty || d.notes.isEmpty then "" else rule margin
  "error[" ++ d.code ++ "]: " ++ d.message ++ "\n" ++ blocks ++ separator ++
    String.join (d.notes.map (note margin)) ++ "\n"

end Diagnostic

end Lowering
