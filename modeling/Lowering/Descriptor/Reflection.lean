import Lowering.Code.Layout
import Lowering.Descriptor.ClassInfo
import Lowering.OrderedMap

/-! The description of a class for reflection.

Fields, accessors and methods are described by three maps in the order of insertion.
The emitted description is a function that returns one function for each map, so that
a map is built only when it is asked for. -/
namespace Lowering

/-- How an accessor may be used. -/
inductive Access where
  | readonly
  | writeonly
  | readwrite
deriving DecidableEq, Repr, Inhabited

def Access.word : Access → String
  | readonly => "readonly"
  | writeonly => "writeonly"
  | readwrite => "readwrite"

/-- The description of a member. -/
structure MemberInfo where
  /-- The type as it is declared; empty for a constructor. -/
  type : String
  declaredBy : Name
  /-- Accessors have it. -/
  access : Option Access := none
  /-- The types of a method's parameters. -/
  parameters : List String := []
  /-- Members that not everyone may use have it. -/
  visibility : Option Visibility := none
deriving DecidableEq, Repr, Inhabited

structure Reflection where
  fields : OrderedMap MemberInfo := .empty
  accessors : OrderedMap MemberInfo := .empty
  methods : OrderedMap MemberInfo := .empty
deriving Inhabited

namespace MemberInfo

/-- The types of the parameters, none of which may be left out. -/
def parameterEntry (types : List String) : String :=
  "parameters: function () \x7b return [ " ++
    ", ".intercalate (types.map fun t => Text.quote t ++ ", false") ++ " ]; \x7d"

/-- The entries of the description, without those that do not apply. -/
def parts (m : MemberInfo) : List String :=
  [stringEntry "type" m.type] ++
    (m.access.map fun a => stringEntry "access" a.word).toList ++
    (m.visibility.map fun v => stringEntry "visibility" v.word).toList ++
    [stringEntry "declaredBy" m.declaredBy.text] ++
    (if m.parameters.isEmpty then [] else [parameterEntry m.parameters])

/-- The description as an object literal. -/
def text (m : MemberInfo) : String := "\x7b " ++ ", ".intercalate m.parts ++ "\x7d"

end MemberInfo

namespace Reflection

def isEmpty (r : Reflection) : Bool :=
  r.fields.isEmpty && r.accessors.isEmpty && r.methods.isEmpty

/-- An entry of a map. -/
def entry (name : String) (m : MemberInfo) : Code :=
  [.verbatim (Text.quote name ++ ": " ++ m.text)]

/-- The function for one map, with what follows it. -/
def mapLayout (key : String) (m : OrderedMap MemberInfo) (after : String) : Layout :=
  if m.isEmpty then Layout.say (key ++ ": function () \x7breturn \x7b\x7d;\x7d" ++ after)
  else
    Layout.say (key ++ ": function () \x7b") ++
      Layout.nested (Layout.say "return \x7b" ++ Layout.nested (Layout.listed (m.entries.map fun (n, m) => entry n m)) ++
        Layout.say "\x7d;") ++
      Layout.say ("\x7d" ++ after)

/-- The describing function, between what opens and what closes its statement. -/
def layout (r : Reflection) (opening : Code) (closing : String) : Layout :=
  Layout.line (opening ++ [.verbatim "function () \x7b"]) ++
    Layout.nested (Layout.say "return \x7b" ++
      Layout.nested (mapLayout "variables" r.fields "," ++
        mapLayout "accessors" r.accessors "," ++ mapLayout "methods" r.methods "") ++
      Layout.say "\x7d;") ++
    Layout.say ("\x7d" ++ closing)

/-- The describing function alone. -/
def text (r : Reflection) : String :=
  String.ofList ((r.layout [] "").text Name.text 0).toList.dropLast

end Reflection

end Lowering
