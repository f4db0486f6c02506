import Lowering.Code.Piece
import Lowering.Text.Lines

/-! Laying out code in lines.

A layout is a list of steps: lines, empty lines, and steps in and out. Each level of
nesting takes two spaces in front of a line that is not empty. Stepping out at the
outermost level has no effect. -/
namespace Lowering

/-- One step of writing. -/
inductive LayoutStep where
  | line (code : Code)
  | blank
  | indent
  | dedent
deriving DecidableEq, Repr, Inhabited

abbrev Layout := List LayoutStep

namespace LayoutStep

/-- The level of nesting after a step. -/
def depthAfter (depth : Nat) : LayoutStep → Nat
  | indent => depth + 1
  | dedent => depth - 1
  | _ => depth

def margin (depth : Nat) : String := String.join (List.replicate depth "  ")

/-- What a step writes at a level of nesting. -/
def text (spelling : Name → String) (depth : Nat) : LayoutStep → String
  | line code =>
    let text := code.text spelling
    if text.isEmpty then "\n" else margin depth ++ text ++ "\n"
  | blank => "\n"
  | indent | dedent => ""

def references : LayoutStep → List Name
  | line code => code.references
  | _ => []

end LayoutStep

namespace Layout

/-- What each step writes, from a level of nesting on. -/
def texts (spelling : Name → String) (depth : Nat) : Layout → List String
  | [] => []
  | s :: rest => s.text spelling depth :: texts spelling (s.depthAfter depth) rest

def text (spelling : Name → String) (depth : Nat) (l : Layout) : String :=
  String.join (l.texts spelling depth)

/-- The level of nesting after all steps. -/
def depthAfter (depth : Nat) (l : Layout) : Nat := l.foldl LayoutStep.depthAfter depth

/-- The names that have to be registered, in the order of the text. -/
def references (l : Layout) : List Name := l.flatMap (·.references)

/-! ### Building -/

def line (c : Code) : Layout := [.line c]

/-- A line of verbatim text. -/
def say (text : String) : Layout := [.line (.ofText text)]

/-- The lines of a text, each at the present level. -/
def lines (text : String) : Layout := (Text.lines text).flatMap say

/-- A number of empty lines. -/
def gap (n : Nat) : Layout := List.replicate n .blank

/-- One level deeper. -/
def nested (l : Layout) : Layout := .indent :: l ++ [.dedent]

/-- A line for each item, with a comma after every one but the last. -/
def listed : List Code → Layout
  | [] => []
  | [c] => line c
  | c :: rest => line (c ++ [.verbatim ","]) ++ listed rest

/-- A line of a comment. -/
def tagLine (tag : Code) : Layout :=
  line (.verbatim (if tag.isEmpty then " *" else " * ") :: tag)

/-- A documentation comment with a line for each tag. -/
def doc (tags : List Code) : Layout :=
  say "/**" ++ tags.flatMap tagLine ++ say " */"

end Layout

/-- The text of a layout that belongs to `owner`. -/
def SymbolTable.writeLayout (t : SymbolTable) (owner : Name) (l : Layout) : Except Error String := do
  t.checkReferences owner l.references
  return l.text t.spelling 0

end Lowering
