import Lowering.Json

/-! Writing JSON text.

Only the quote, the backslash and control characters are escaped. The compact form
has no blanks; the indented one puts each part on its own line, two spaces deeper,
and writes an empty array or object without a line break. -/
namespace Lowering.Json

def hexDigit (n : Nat) : Char := (Nat.toDigits 16 n).headD '0'

def escapeChar (c : Char) : List Char :=
  match c with
  | '"' => ['\\', '"']
  | '\\' => ['\\', '\\']
  | '\n' => ['\\', 'n']
  | '\r' => ['\\', 'r']
  | '\t' => ['\\', 't']
  | '\x08' => ['\\', 'b']
  | '\x0c' => ['\\', 'f']
  | c =>
    if c.toNat < 0x20 then
      ['\\', 'u', '0', '0', hexDigit (c.toNat / 16), hexDigit (c.toNat % 16)]
    else [c]

def quoted (s : String) : String :=
  String.ofList ('"' :: (s.toList.flatMap escapeChar ++ ['"']))

/-- The text of a value without parts. -/
def scalarText : Json → String
  | .null => "null"
  | .bool b => if b then "true" else "false"
  | .number n => n.text
  | .string s => quoted (s.getD "")
  | .array _ | .object _ => ""

mutual

def compact : Json → String
  | .array items => "[" ++ compactItems items ++ "]"
  | .object entries => "\x7b" ++ compactEntries entries ++ "\x7d"
  | v => scalarText v

def compactItems : List Json → String
  | [] => ""
  | [v] => compact v
  | v :: rest => compact v ++ "," ++ compactItems rest

def compactEntries : List (Option String × Json) → String
  | [] => ""
  | [(k, v)] => quoted (k.getD "") ++ ":" ++ compact v
  | (k, v) :: rest => quoted (k.getD "") ++ ":" ++ compact v ++ "," ++ compactEntries rest

end

/-- A line break and the blanks of a level. -/
def newline (level : Nat) : String :=
  String.ofList ('\n' :: List.replicate (2 * level) ' ')

mutual

/-- The indented text of a value that stands at a level. -/
def indented (level : Nat) : Json → String
  | .array [] => "[]"
  | .object [] => "\x7b\x7d"
  | .array items =>
    "[" ++ newline (level + 1) ++ indentedItems (level + 1) items ++ newline level ++ "]"
  | .object entries =>
    "\x7b" ++ newline (level + 1) ++ indentedEntries (level + 1) entries ++ newline level ++ "\x7d"
  | v => scalarText v

def indentedItems (level : Nat) : List Json → String
  | [] => ""
  | [v] => indented level v
  | v :: rest => indented level v ++ "," ++ newline level ++ indentedItems level rest

def indentedEntries (level : Nat) : List (Option String × Json) → String
  | [] => ""
  | [(k, v)] => quoted (k.getD "") ++ ": " ++ indented level v
  | (k, v) :: rest =>
    quoted (k.getD "") ++ ": " ++ indented level v ++ "," ++ newline level ++
      indentedEntries level rest

end

end Lowering.Json
