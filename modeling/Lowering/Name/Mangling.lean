import Lowering.Name

/-! Names of generated members.

A qualified name is flattened by writing underscores for its dots. Synthesized
identity bindings are numbered `$ID0`, `$ID1`, …, synthesized event handlers
`$EH0`, `$EH1`, …; a name has one of these shapes when nothing but decimal digits,
and at least one, follow the marker. -/
namespace Lowering

/-- The name as one identifier, with an underscore for each dot. -/
def Name.flat (n : Name) : String :=
  String.ofList (n.text.toList.map fun c => if c = '.' then '_' else c)

/-- The emitted name of a private member that its owner's name keeps apart. -/
def privateName (owner : Name) (member : String) : String :=
  owner.flat ++ "_" ++ member

/-! ### Synthesized members -/

/-- What a synthesized identity binding starts with. -/
def bindingMarker : String := "$ID"

/-- What a synthesized event handler starts with. -/
def handlerMarker : String := "$EH"

def bindingName (index : Nat) : String := bindingMarker ++ index.repr

def handlerName (index : Nat) : String := handlerMarker ++ index.repr

/-- The marker and then one or more decimal digits. -/
def isNumbered (marker name : String) : Bool :=
  let digits := name.toList.drop marker.length
  marker.toList.isPrefixOf name.toList && !digits.isEmpty && digits.all Char.isDigit

def isBindingName (name : String) : Bool := isNumbered bindingMarker name

def isHandlerName (name : String) : Bool := isNumbered handlerMarker name

/-! ### Accessor members -/

def getterName (property : String) : String := "get_" ++ property

def setterName (property : String) : String := "set_" ++ property

/-- The field that keeps a declared accessor's value. -/
def storageName (property : String) : String := property ++ "_"

end Lowering
