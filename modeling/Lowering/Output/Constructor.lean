import Lowering.Instruction.Token
import Lowering.Output.Annotation
import Lowering.Output.ClassPlan

/-! Constructors.

The constructor of a class calls that of its base and gives every field its first value:
the declared fields, those behind the declared accessors, and, without a value, those
that the graph builder assigns. A markup class then hands its encoded tree to the graph
builder. An interface has an empty constructor and its methods without bodies. -/
namespace Lowering

/-- An element of the encoded tree as code. -/
def Token.code (s : Scope) : Token Name → Code
  | .type ref => [.name .support ref]
  | .count n => [.verbatim n.repr]
  | .text s => [.verbatim (Text.quote s)]
  | .mark simple => [.verbatim (if simple then "true" else "false")]
  | .null => [.verbatim "null"]
  | .literal value => [.verbatim value.render]
  | .expression value => value.code s
  | .handler name => [.verbatim ("this." ++ name)]
  | .array items => Code.between "[" (.joined ", " (codeEach items)) "]"
where
  codeEach : List (Token Name) → List Code
    | [] => []
    | t :: rest => t.code s :: codeEach rest

namespace ClassPlan

variable (p : ClassPlan)

/-- The value that a member has before anything is assigned. -/
def initialValue (type : TypeRef) (initializer : Option Expr) : Code :=
  match initializer with
  | some e => e.code p.scope
  | none => [.verbatim type.defaultValue]

/-- The assignment of a member's first value. -/
def assignFirst (target : Code) (type : TypeRef) (initializer : Option Expr) : Layout :=
  Layout.line (target ++ [.verbatim " = "] ++ p.initialValue type initializer ++ [.verbatim ";"])

/-- A field of an instance. -/
def fieldLayout (f : Field) : Layout :=
  Layout.gap 1 ++
    Layout.doc (f.visibility.fieldTags ++ [typeTag "@type" (f.type.code .support) ""]) ++
    p.assignFirst [.verbatim ("this." ++ p.scope.memberName f.name)] f.type f.initializer

/-- The field behind an accessor pair. -/
def storageLayout (a : AccessorPair) : Layout :=
  Layout.gap 1 ++
    Layout.doc [Visibility.owner.tag, typeTag "@type" (a.type.code .support) ""] ++
    p.assignFirst [.verbatim ("this." ++ a.storage)] a.type a.initializer

/-- A field that the graph builder assigns. -/
def bindingLayout (b : BindingField) : Layout :=
  Layout.gap 1 ++
    Layout.doc [Visibility.owner.tag, typeTag "@type" [.name .support b.target] ""] ++
    Layout.say ("this." ++ b.name ++ ";")

/-- The call of the graph builder with the encoded tree. -/
def graphLayout (l : Linearized) : Layout :=
  Layout.gap 1 ++ Layout.say ("this." ++ p.options.graphBuilder ++ "([") ++
    Layout.nested (Layout.listed ((l.root.encodeRoot id).map (·.code p.scope))) ++
    Layout.say "]);"

/-- The fields of a markup class and the call that assigns them. -/
def markupLayout (l : Linearized) : Layout :=
  l.bindings.flatMap bindingLayout ++ p.graphLayout l

/-- The body of the constructor. -/
def constructorBody : Layout :=
  (if p.decl.base.isSome then Layout.line [p.self, .verbatim ".base(this, 'constructor');"] else []) ++
    (p.decl.fields.filter (!·.isStatic)).flatMap p.fieldLayout ++
    (p.accessors.filter (·.origin = .declared)).flatMap p.storageLayout ++
    p.linearized.toList.flatMap p.markupLayout

/-- The line that opens the constructor. -/
def constructorOpening : Layout := Layout.line [p.self, .verbatim " = function() \x7b"]

/-- The call that links the class to its base. -/
def inheritance : Layout :=
  p.decl.base.toList.flatMap fun b =>
    Layout.line [.verbatim (p.options.inheritsFn ++ "("), p.self, .verbatim ", ",
      .name .support b, .verbatim ");"]

def constructorLayout : Layout :=
  Layout.doc (plainTag "@constructor" ::
      p.decl.base.toList.map (fun b => typeTag "@extends" [.name .support b] "") ++
      p.decl.interfaces.map fun n => typeTag "@implements" [.name .support n] "") ++
    p.constructorOpening ++ Layout.nested p.constructorBody ++ Layout.say "\x7d;" ++ p.inheritance

/-! ### Interfaces -/

/-- A method without a body. -/
def abstractMethod (m : Method) : Layout :=
  Layout.gap 2 ++
    (if m.signatureTags.isEmpty then [] else Layout.doc m.signatureTags) ++
    Layout.line (p.prototype m.name ++ [.verbatim (" = function(" ++ m.paramList ++ ") \x7b\x7d;")])

def interfaceLayout : Layout :=
  Layout.doc (plainTag "@interface" ::
      p.decl.interfaces.map fun n => typeTag "@extends" [.name .support n] "") ++
    p.constructorOpening ++ Layout.say "\x7d;" ++ p.decl.methods.flatMap p.abstractMethod

end ClassPlan

end Lowering
