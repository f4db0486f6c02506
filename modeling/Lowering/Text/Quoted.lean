/-! String literals of the emitted code.

A literal stands in single quotes. The quote and the backslash are written after a
backslash, and line feed, carriage return and tab as letters after one; every other
character stands for itself. -/
namespace Lowering.Text

/-- One character inside a literal. -/
def escape : Char → List Char
  | '\'' => ['\\', '\'']
  | '\\' => ['\\', '\\']
  | '\n' => ['\\', 'n']
  | '\r' => ['\\', 'r']
  | '\t' => ['\\', 't']
  | c => [c]

/-- The characters of a literal with its quotes. -/
def quoteChars (cs : List Char) : List Char :=
  '\'' :: (cs.flatMap escape ++ ['\''])

/-- The literal whose value is `s`. -/
def quote (s : String) : String :=
  String.ofList (quoteChars s.toList)

end Lowering.Text
