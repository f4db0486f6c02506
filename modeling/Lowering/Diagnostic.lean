import Lowering.Diagnostic.Source
import Lowering.Error
import Lowering.Text.Blank

/-! Diagnostics.

A failure becomes a message with labels and notes. A place in a file whose text is known
is labelled: with its span if it has one, and otherwise from its column up to the next
blank or the end of its line. A place elsewhere becomes a note. -/
namespace Lowering

inductive LabelStyle where
  | primary
  | secondary
deriving DecidableEq, Repr, Inhabited

/-- A remark on the bytes from `start` up to but not including `stop`. -/
structure Label where
  style : LabelStyle
  /-- The id of the file. -/
  file : Nat
  start : Nat
  stop : Nat
  message : String
deriving DecidableEq, Repr, Inhabited

structure Diagnostic where
  code : String
  message : String
  labels : List Label
  notes : List String
deriving DecidableEq, Repr, Inhabited

/-- The place lies inside a character, so that no label can start there. -/
structure SplitCharacter where
  location : Location
deriving DecidableEq, Repr, Inhabited

/-! ### Labels -/

/-- Passes over bytes, at most as many as there are: how many these are and what is
left. There is no result when the last of them is inside a character. -/
def passBytes : (bytes : Nat) → List Char → Option (Nat × List Char)
  | _, [] => some (0, [])
  | 0, cs => some (0, cs)
  | bytes + 1, c :: rest =>
    if c.utf8Size ≤ bytes + 1 then
      (passBytes (bytes + 1 - c.utf8Size) rest).map fun (n, left) => (c.utf8Size + n, left)
    else none

/-- The bytes of a line from a column, counted in bytes from one, up to a blank. -/
def SourceLine.word? (l : SourceLine) (column : Nat) : Option (Nat × Nat) :=
  (passBytes (column - 1) l.chars).map fun (n, left) =>
    let start := l.start + n
    (start, start + byteLength (left.takeWhile (!Text.isBlank ·)))

namespace Sources

variable (s : Sources)

/-- The file and the bytes of a place, if its file is known and has its line. -/
def range? (l : Location) : Except SplitCharacter (Option (Nat × Nat × Nat)) :=
  match s.id? l.file with
  | none => .ok none
  | some id =>
    match l.span with
    | some span => .ok (some (id, span.start.toNat, span.stop.toNat))
    | none =>
      match (s[id]?.map (·.lines)).getD [] |>.drop (l.line.toNat - 1) |>.head? with
      | none => .ok none
      | some line =>
        match line.word? l.column.toNat with
        | some range => .ok (some (id, range))
        | none => .error ⟨l⟩

/-- The label of a place or the note that stands for it. -/
def mark (style : LabelStyle) (message note : String) (l : Location) :
    Except SplitCharacter (List Label × List String) := do
  match ← s.range? l with
  | some (file, start, stop) => return ([{ style, file, start, stop, message }], [])
  | none => return ([], [note ++ " " ++ l.text])

end Sources

namespace Error

/-- What a failure says at its place. -/
def labelMessage : Error → String
  | duplicateSymbol .. => "redefined here"
  | unresolvedSymbol .. => "not a registered class or interface"
  | inheritanceCycle .. => "inheritance cycle starts here"
  | cyclicTree .. => "node contains itself"
  | sharedNode .. => "node has more than one parent"
  | danglingNode .. => "unknown node"
  | malformedTree .. => "in this tree"
  | duplicateIdentity .. => "identity name already used"
  | unknownEventTarget .. => "event bound here"
  | emptyModule .. => "module has no classes"
  | cancelled | internal .. => ""

/-- The place of the first of two definitions. -/
def firstLocation : Error → Option Location
  | duplicateSymbol _ first _ => first
  | _ => none

/-- What can be done about a failure. -/
def help : Error → List String
  | inheritanceCycle (first :: _) _ =>
    ["help: break the cycle by changing the base class of " ++ first.text]
  | _ => []

/-- The diagnostic of a failure. -/
def diagnostic (e : Error) (s : Sources) : Except SplitCharacter Diagnostic := do
  let here ← e.location.toList.mapM (s.mark .primary e.labelMessage "at")
  let first ← e.firstLocation.toList.mapM (s.mark .secondary "first defined here" "first defined at")
  let marks := here ++ first
  return {
    code := e.code
    message := e.message
    labels := marks.flatMap (·.1)
    notes := marks.flatMap (·.2) ++ e.help }

end Error

end Lowering
