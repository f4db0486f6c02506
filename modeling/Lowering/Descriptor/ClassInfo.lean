import Lowering.Code.Piece

/-! The class metadata.

An object literal lists the names of a class, each with its qualified form and its kind,
and the interfaces of the class as references, which are left out when there are none. -/
namespace Lowering

/-- One name under which the class is known. -/
structure NameRecord where
  name : String
  qualified : Name
  kind : Kind
deriving DecidableEq, Repr, Inhabited

structure ClassInfo where
  /-- The class's own record comes first. -/
  names : List NameRecord
  interfaces : List Name
deriving DecidableEq, Repr, Inhabited

/-- A key of an object literal with a string. -/
def stringEntry (key value : String) : String := key ++ ": " ++ Text.quote value

def NameRecord.code (r : NameRecord) : Code :=
  [.verbatim ("\x7b " ++ ", ".intercalate [stringEntry "name" r.name,
    stringEntry "qName" r.qualified.text, stringEntry "kind" r.kind.word] ++ " \x7d")]

namespace ClassInfo

def interfaceList (info : ClassInfo) : Code :=
  Code.between ", interfaces: [" (.joined ", " (info.interfaces.map fun n => [.name .support n])) "]"

/-- The object literal. -/
def code (info : ClassInfo) : Code :=
  Code.between "\x7b names: [" (.joined ", " (info.names.map (·.code))) "]" ++
    (if info.interfaces.isEmpty then [] else info.interfaceList) ++ [.verbatim " \x7d"]

end ClassInfo

end Lowering
