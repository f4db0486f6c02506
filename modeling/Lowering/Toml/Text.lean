import Lowering.Json.Token

/-! Strings of TOML.

Strings in double quotes have escapes, those in single quotes have none. Three quotes
open a string of several lines, which a line break right after them is not part of; a
line break inside is a line feed, and a backslash at the end of a line takes in all
blanks and line breaks up to the next character. -/
namespace Lowering.Toml

/-- Whether a character may stand in a string or a comment as it is. -/
def isPlain (c : Char) : Bool := c = '\t' || (0x20 ≤ c.toNat && c.toNat ≠ 0x7F)

/-- The character that a letter after a backslash stands for. -/
def escape? : Char → Option Char
  | '"' => some '"'
  | '\\' => some '\\'
  | 'b' => some '\x08'
  | 'f' => some '\x0c'
  | 'n' => some '\n'
  | 'r' => some '\r'
  | 't' => some '\t'
  | _ => none

/-- The character with a number; halves of surrogate pairs are none. -/
def ofCode? (code : Nat) : Option Char :=
  if code < 0xD800 || (0xE000 ≤ code && code < 0x110000) then some (Char.ofNat code) else none

/-- Reads the character after a backslash. -/
def escaped? : List Char → Option (Char × List Char)
  | 'u' :: a :: b :: c :: d :: rest => do
    return (← ofCode? (← Json.hexUnit? a b c d), rest)
  | 'U' :: a :: b :: c :: d :: e :: f :: g :: h :: rest => do
    return (← ofCode? ((← Json.hexUnit? a b c d) * 0x10000 + (← Json.hexUnit? e f g h)), rest)
  | c :: rest => do return (← escape? c, rest)
  | [] => none

/-- The characters without blanks and line breaks in front, if there is a line break
after the first blanks. -/
def pastLineBreak? (cs : List Char) : Option (List Char) :=
  let isBreak (rest : List Char) : Bool :=
    ['\n'].isPrefixOf rest || ['\r', '\n'].isPrefixOf rest
  let rest := cs.dropWhile fun c => c = ' ' || c = '\t'
  if isBreak rest then some (skip rest) else none
where
  /-- Passes over blanks and line breaks. -/
  skip : List Char → List Char
    | ' ' :: rest => skip rest
    | '\t' :: rest => skip rest
    | '\n' :: rest => skip rest
    | '\r' :: '\n' :: rest => skip rest
    | cs => cs

/-- Reads a string in double quotes up to its end; `rounds` bounds the characters. -/
def basicBody : (rounds : Nat) → List Char → Option (List Char × List Char)
  | 0, _ => none
  | rounds + 1, cs =>
    match cs with
    | [] => none
    | '"' :: rest => some ([], rest)
    | '\\' :: rest => do
      let (c, rest) ← escaped? rest
      let (body, after) ← basicBody rounds rest
      return (c :: body, after)
    | c :: rest => do
      if !isPlain c then none
      let (body, after) ← basicBody rounds rest
      return (c :: body, after)

/-- Reads a string in three double quotes up to its end, with up to two more quotes
before these. -/
def longBasicBody : (rounds : Nat) → List Char → Option (List Char × List Char)
  | 0, _ => none
  | rounds + 1, cs =>
    match cs with
    | '"' :: '"' :: '"' :: '"' :: '"' :: rest => some (['"', '"'], rest)
    | '"' :: '"' :: '"' :: '"' :: rest => some (['"'], rest)
    | '"' :: '"' :: '"' :: rest => some ([], rest)
    | '\\' :: rest =>
      match pastLineBreak? rest with
      | some rest => longBasicBody rounds rest
      | none => do
        let (c, rest) ← escaped? rest
        let (body, after) ← longBasicBody rounds rest
        return (c :: body, after)
    | '\r' :: '\n' :: rest => do
      let (body, after) ← longBasicBody rounds rest
      return ('\n' :: body, after)
    | c :: rest => do
      if !(isPlain c || c = '\n') then none
      let (body, after) ← longBasicBody rounds rest
      return (c :: body, after)
    | [] => none

/-- Reads a string in single quotes up to its end. -/
def literalBody : List Char → Option (List Char × List Char)
  | [] => none
  | '\'' :: rest => some ([], rest)
  | c :: rest => do
    if !isPlain c then none
    let (body, after) ← literalBody rest
    return (c :: body, after)

/-- Reads a string in three single quotes up to its end, with up to two more quotes
before these. -/
def longLiteralBody : List Char → Option (List Char × List Char)
  | '\'' :: '\'' :: '\'' :: '\'' :: '\'' :: rest => some (['\'', '\''], rest)
  | '\'' :: '\'' :: '\'' :: '\'' :: rest => some (['\''], rest)
  | '\'' :: '\'' :: '\'' :: rest => some ([], rest)
  | '\r' :: '\n' :: rest => do
    let (body, after) ← longLiteralBody rest
    return ('\n' :: body, after)
  | c :: rest => do
    if !(isPlain c || c = '\n') then none
    let (body, after) ← longLiteralBody rest
    return (c :: body, after)
  | [] => none

/-- The characters without a line break in front. -/
def pastBreak : List Char → List Char
  | '\n' :: rest => rest
  | '\r' :: '\n' :: rest => rest
  | cs => cs

/-- Reads a string on one line. -/
def shortString? : List Char → Option (String × List Char)
  | '"' :: rest => (basicBody (rest.length + 1) rest).map fun (s, after) => (String.ofList s, after)
  | '\'' :: rest => (literalBody rest).map fun (s, after) => (String.ofList s, after)
  | _ => none

/-- Reads a string of any kind. -/
def string? : List Char → Option (String × List Char)
  | '"' :: '"' :: '"' :: rest =>
    (longBasicBody (rest.length + 1) (pastBreak rest)).map fun (s, after) => (String.ofList s, after)
  | '\'' :: '\'' :: '\'' :: rest =>
    (longLiteralBody (pastBreak rest)).map fun (s, after) => (String.ofList s, after)
  | cs => shortString? cs

end Lowering.Toml
