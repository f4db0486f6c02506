import Lowering.Toml.Scalar
import Lowering.Toml.Text

/-! Reading TOML text.

A document is a sequence of lines, each with an assignment, a header, a comment or
nothing. Arrays may run over several lines; tables in braces may not. -/
namespace Lowering.Toml

/-- Reads from the front of the characters that are left. -/
abbrev Scan (α : Type) := StateT (List Char) Option α

namespace Scan

/-- Takes an expected character. -/
def expect (c : Char) : Scan Unit := fun cs =>
  match cs with
  | d :: rest => if d = c then some ((), rest) else none
  | [] => none

/-- Takes a character if it comes next. -/
def accept (c : Char) : Scan Bool := fun cs =>
  match cs with
  | d :: rest => if d = c then some (true, rest) else some (false, cs)
  | [] => some (false, [])

/-- Takes the characters of a kind that come next. -/
def run (p : Char → Bool) : Scan (List Char) := fun cs => some (cs.takeWhile p, cs.dropWhile p)

def blanks : Scan Unit := discard (run fun c => c = ' ' || c = '\t')

/-- Rounds of reading, until one gives nothing. -/
def rounds {α : Type} (step : Scan (Option α)) : (limit : Nat) → Scan (List α)
  | 0 => failure
  | limit + 1 => do
    match ← step with
    | none => return []
    | some a => return a :: (← rounds step limit)

/-- Reads again and again. Every round but the last takes a character at least, so that
as many rounds as there are characters, and one, suffice. -/
def many {α : Type} (step : Scan (Option α)) : Scan (List α) := fun cs =>
  rounds step (cs.length + 1) cs

/-- Whether a character comes next. -/
def sees (c : Char) : Scan Bool := fun cs => some (cs.head? = some c, cs)

/-! ### Ends of lines -/

/-- Takes a comment, if there is one. -/
def comment : Scan Unit := do
  if ← accept '#' then discard (run isPlain)

/-- Takes a line break. -/
def lineBreak : Scan Unit := do
  discard (accept '\r')
  expect '\n'

/-- The end of a line: blanks, a comment, and a line break or the end of the text. -/
def endOfLine : Scan Unit := do
  blanks
  comment
  unless (← get).isEmpty do lineBreak

/-- Takes blanks, comments and line breaks. -/
def spacing : Scan Unit := do
  discard (many do
    blanks
    match (← get).head? with
    | some '#' => do
      comment
      lineBreak
      return some ()
    | some '\n' | some '\r' => do
      lineBreak
      return some ()
    | _ => return none)

/-! ### Keys -/

def isBareChar (c : Char) : Bool := c.isAlphanum || c = '_' || c = '-'

/-- One part of a key. -/
def simpleKey : Scan String := do
  match (← get).head? with
  | some '"' | some '\'' => shortString?
  | _ =>
    let cs ← run isBareChar
    if cs.isEmpty then failure
    return String.ofList cs

/-- How many parts a key may have, and how deep values may be nested. -/
def depthLimit : Nat := 79

/-- The parts of a key, with dots between them. -/
def keys : Scan (List String) := do
  blanks
  let first ← simpleKey
  blanks
  let more ← many do
    if ← accept '.' then
      blanks
      let part ← simpleKey
      blanks
      return some part
    else return none
  if depthLimit < more.length + 1 then failure
  return first :: more

/-! ### Values -/

/-- A word; a date may be followed by a blank and a time. -/
def word : Scan Toml := do
  let cs ← run isWordChar
  let rest ← get
  match isDate cs, rest with
  | true, ' ' :: more =>
    if isOffsetTime (more.takeWhile isWordChar) then set (more.dropWhile isWordChar)
    return .moment
  | _, _ => word? cs

/-- The items of an array, whose bracket is open. -/
def items (value : Scan Toml) : Scan Toml := do
  let first ← item
  let more ← match first with
    | none => pure []
    | some _ => many do
      if ← accept ',' then item else return none
  spacing
  expect ']'
  return .array (first.toList ++ more)
where
  /-- An item, unless the array ends. -/
  item : Scan (Option Toml) := do
    spacing
    if ← sees ']' then return none
    let v ← value
    spacing
    return some v

/-- A key and its value. -/
def assignment (value : Scan Toml) : Scan Assignment := do
  let path ← keys
  expect '='
  blanks
  return (path, ← value)

/-- The assignments of a table in braces, whose brace is open. -/
def braced (value : Scan Toml) : Scan Toml := do
  blanks
  if ← accept '\x7d' then return .closed []
  let first ← assignment value
  blanks
  let more ← many do
    if ← accept ',' then
      let a ← assignment value
      blanks
      return some a
    else return none
  expect '\x7d'
  return .closed (← Entries.placeAll [] (first :: more))

/-- A value with so many levels of nesting. -/
def value : (levels : Nat) → Scan Toml
  | 0 => plain
  | levels + 1 => do
    if ← accept '[' then items (value levels)
    else if ← accept '\x7b' then braced (value levels)
    else plain
where
  /-- A value that holds no others. -/
  plain : Scan Toml := do
    match (← get).head? with
    | some '"' | some '\'' => return .string (← string?)
    | _ => word

/-! ### Documents -/

/-- An assignment on a line of its own. -/
def line : Scan Assignment := do
  let a ← assignment (value depthLimit)
  endOfLine
  return a

/-- The assignments up to the next header. -/
def body : Scan (List Assignment) := do
  let lines ← many do
    blanks
    match (← get).head? with
    | none | some '[' => return none
    | some '#' | some '\n' | some '\r' =>
      endOfLine
      return some none
    | some _ => return some (some (← line))
  return lines.filterMap id

/-- A header with the assignments below it. -/
def section? : Scan (Option Section) := do
  if !(← accept '[') then return none
  let isElement ← accept '['
  let path ← keys
  expect ']'
  if isElement then expect ']'
  endOfLine
  let assignments ← body
  return some (if isElement then .element path assignments else .table path assignments)

/-- A whole document. -/
def document : Scan Entries := do
  discard (accept '\ufeff')
  let top ← body
  let sections ← many section?
  if !(← get).isEmpty then failure
  Entries.ofSections top sections

end Scan

/-- Reads the text of a document. -/
def parse? (text : String) : Option Entries := (Scan.document text.toList).map (·.1)

end Lowering.Toml
