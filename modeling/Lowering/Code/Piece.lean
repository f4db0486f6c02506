import Lowering.Symbol.Table

/-! Code before its names are spelled.

How a class is called in emitted code is decided by the symbol table. Code is therefore
put together from verbatim text and from names, and a table turns it into text. So it
can be seen which names a piece of code uses, and what they are used for. -/
namespace Lowering

/-- What a name is used for. -/
inductive NameUse where
  /-- The program refers to the class, which has to be registered. -/
  | reference
  /-- The runtime or an annotation needs the name; one that is not registered stands for
  itself. -/
  | support
  /-- A type in the signature of a declared method. -/
  | signature
deriving DecidableEq, Repr, Inhabited

inductive Piece where
  | verbatim (text : String)
  /-- The identifier of a name. -/
  | name (use : NameUse) (n : Name)
  /-- The identifier of a name as a string literal. -/
  | quoted (n : Name)
deriving DecidableEq, Repr, Inhabited

abbrev Code := List Piece

/-- The text of a piece, given how names are spelled. -/
def Piece.text (spelling : Name → String) : Piece → String
  | verbatim text => text
  | name _ n => spelling n
  | quoted n => Text.quote (spelling n)

/-- The name that a piece refers to and that has to be registered. -/
def Piece.reference? : Piece → Option Name
  | name .reference n => some n
  | _ => none

namespace Code

def text (spelling : Name → String) (c : Code) : String :=
  String.join (c.map (·.text spelling))

/-- Verbatim text. -/
def ofText (text : String) : Code := if text.isEmpty then [] else [.verbatim text]

/-- The names that have to be registered, in the order of the text. -/
def references (c : Code) : List Name := c.filterMap (·.reference?)

/-- The parts with a separator between them. -/
def joined (separator : String) (parts : List Code) : Code :=
  List.intercalate [.verbatim separator] parts

/-- The code between two texts. -/
def between (opening : String) (c : Code) (closing : String) : Code :=
  .verbatim opening :: c ++ [.verbatim closing]

end Code

/-- The failure of the first name that has to be registered and is not. -/
def SymbolTable.checkReferences (t : SymbolTable) (owner : Name) (names : List Name) :
    Except Error Unit :=
  match names.find? fun n => !t.contains n with
  | some n => .error (.unresolvedSymbol n owner none)
  | none => .ok ()

/-- The text of code that belongs to `owner`. -/
def SymbolTable.write (t : SymbolTable) (owner : Name) (c : Code) : Except Error String := do
  t.checkReferences owner c.references
  return c.text t.spelling

/-- A type: one of the runtime under its own name, a declared one under its identifier. -/
def TypeRef.code (use : NameUse) : TypeRef → Code
  | .builtin name => [.verbatim name]
  | .declared n => [.name use n]

end Lowering
