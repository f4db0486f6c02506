import Lowering.Code.Layout
import Lowering.Source.Class

/-! The tags of documentation comments. -/
namespace Lowering

/-- A tag without arguments. -/
def plainTag (text : String) : Code := .ofText text

/-- A tag with a type in braces and what stands after it. -/
def typeTag (tag : String) (type : Code) (after : String) : Code :=
  Code.between (tag ++ " \x7b") type ("\x7d" ++ after)

/-- The tag that tells who may use a member. -/
def Visibility.tag : Visibility → Code
  | .everyone | .package => plainTag "@export"
  | .subclasses => plainTag "@protected"
  | .owner => plainTag "@private"

/-- The tag of a field, which a public one does not have. -/
def Visibility.fieldTags (v : Visibility) : List Code :=
  if v = .everyone then [] else [v.tag]

/-- The tags of a method's signature. -/
def Method.signatureTags (m : Method) : List Code :=
  m.params.map (fun p => typeTag "@param" (p.type.code .signature) (" " ++ p.name)) ++
    if m.returnType = .void then [] else [typeTag "@return" (m.returnType.code .signature) ""]

/-- The parameters of a method as they are listed. -/
def Method.paramList (m : Method) : String := ", ".intercalate (m.params.map (·.name))

end Lowering
