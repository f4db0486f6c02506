import Lowering.Name

/-! Type references.

A declared type is written as one text. The types of the runtime itself have fixed
names; they are never looked up and never required. Every other text names a class
or an interface. -/
namespace Lowering

/-- A type as a declaration names it. -/
inductive TypeRef where
  /-- A type of the runtime. -/
  | builtin (name : String)
  /-- A declared class or interface. -/
  | declared (name : Name)
deriving DecidableEq, Repr, Inhabited

namespace TypeRef

/-- The names of the runtime's own types. -/
def builtins : List String :=
  ["*", "void", "Object", "Array", "String", "Number", "int", "uint", "Boolean", "Function",
    "Class", "Date", "RegExp", "Error", "Math", "JSON", "XML", "XMLList", "Vector", "Null"]

def ofText (text : String) : TypeRef :=
  if text ∈ builtins then .builtin text else .declared ⟨text⟩

/-- The type that admits every value. -/
def any : TypeRef := .builtin "*"

/-- The type of a method without a result. -/
def void : TypeRef := .builtin "void"

/-- The class or interface, if the type is declared. -/
def declared? : TypeRef → Option Name
  | .builtin _ => none
  | .declared name => some name

/-- The type as it is written in the source. -/
def text : TypeRef → String
  | .builtin name => name
  | .declared name => name.text

/-- What a member of this type holds before anything is assigned. -/
def defaultValue : TypeRef → String
  | .builtin "Number" => "NaN"
  | .builtin "int" => "0"
  | .builtin "uint" => "0"
  | .builtin "Boolean" => "false"
  | .builtin "*" => "undefined"
  | _ => "null"

end TypeRef

end Lowering
