/-! Lines of a text.

A line ends at a line feed, and a carriage return directly before it belongs to the
line break. Nothing follows the last line break. -/
namespace Lowering.Text

/-- A line without the carriage return at its end. -/
def dropReturn (line : List Char) : List Char :=
  if line.getLast? = some '\r' then line.dropLast else line

/-- The lines of a text, given the characters of the present line in reverse. -/
def linesFrom (present : List Char) : List Char → List (List Char)
  | [] => if present.isEmpty then [] else [present.reverse]
  | c :: rest =>
    if c = '\n' then dropReturn present.reverse :: linesFrom [] rest
    else linesFrom (c :: present) rest

/-- The lines of a text, without their line breaks. -/
def lines (s : String) : List String :=
  (linesFrom [] s.toList).map String.ofList

end Lowering.Text
