/-! Places in the source. -/
namespace Lowering

/-- The bytes from `start` up to but not including `stop`. -/
structure Span where
  start : UInt32
  stop : UInt32
deriving DecidableEq, Repr, Inhabited

/-- A place in a source file: line and column count from one. -/
structure Location where
  file : String
  line : UInt32
  column : UInt32
  span : Option Span := none
deriving DecidableEq, Repr, Inhabited

namespace Location

/-- The place as it is written in messages. -/
def text (l : Location) : String :=
  s!"{l.file}:{l.line.toNat}:{l.column.toNat}"

end Location

/-- The text of a place that may be unknown. -/
def Location.textOrUnknown : Option Location → String
  | some l => l.text
  | none => "<unknown>"

end Lowering
