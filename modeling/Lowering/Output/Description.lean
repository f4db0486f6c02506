import Lowering.Descriptor.Reflection
import Lowering.Output.Annotation
import Lowering.Output.ClassPlan

/-! How a class describes itself: its export, its metadata and its reflection.

Reflection describes what everyone may use. Where the options ask for it, it describes
private and synthesized members too; those that not everyone may use are marked. Static
members have no part in it. -/
namespace Lowering.ClassPlan

variable (p : ClassPlan)

/-! ### Metadata -/

def classInfo : ClassInfo where
  names := ⟨p.symbol.name.simple, p.symbol.name, p.symbol.declaration.kind⟩ ::
    p.decl.flags.aliases.map fun a => ⟨a.name, a.qualified, a.kind⟩
  interfaces := p.symbol.declaration.interfaces

/-! ### Reflection -/

/-- Whether reflection describes a member. -/
def describes (v : Visibility) : Bool := v = .everyone || p.options.reflectPrivate

/-- The mark of a member that not everyone may use. -/
def mark (v : Visibility) : Option Visibility := if v = .everyone then none else some v

/-- The description of a member of a type that the class declares. -/
def described (type : String) (v : Visibility) : MemberInfo where
  type := type
  declaredBy := p.decl.name
  visibility := mark v

/-- The fields that are described. -/
def reflectedFields : List (String × MemberInfo) :=
  (p.decl.fields.filter fun f => !f.isStatic && p.describes f.visibility).map fun f =>
    (f.name, p.described f.type.text f.visibility)

/-- The fields that the graph builder assigns without the source's asking. -/
def synthesizedFields : List (String × MemberInfo) :=
  let bindings := (p.linearized.map (·.bindings)).getD []
  (bindings.filter (!·.exposed)).map fun b => (b.name, p.described b.target.text .owner)

def reflectedAccessors : List (String × MemberInfo) :=
  (p.accessors.filter fun a => p.describes a.visibility).map fun a =>
    (a.property, { p.described a.type.text a.visibility with access := some .readwrite })

/-- The constructor, which goes by the simple name of the class. -/
def reflectedConstructor : List (String × MemberInfo) :=
  if p.decl.kind = .concrete then [(p.symbol.name.simple, p.described "" .everyone)] else []

def reflectedMethods : List (String × MemberInfo) :=
  (p.decl.methods.filter fun m => !m.isStatic && p.describes m.visibility).map fun m =>
    (m.name, { p.described m.returnType.text m.visibility with
      parameters := m.params.map (·.type.text) })

def synthesizedMethods : List (String × MemberInfo) :=
  p.handlers.map fun h =>
    (h.name, { p.described TypeRef.void.text .owner with
      parameters := [(h.eventType.getD .any).text] })

/-- Members that are described only where the options ask for it. -/
def onRequest (members : List (String × MemberInfo)) : List (String × MemberInfo) :=
  if p.options.reflectPrivate then members else []

/-- The description of the class; one that is not reflectable describes nothing. -/
def reflection : Reflection :=
  if p.symbol.capabilities.reflectable then {
    fields := .ofList (p.reflectedFields ++ p.onRequest p.synthesizedFields)
    accessors := .ofList p.reflectedAccessors
    methods := .ofList
      (p.reflectedConstructor ++ p.reflectedMethods ++ p.onRequest p.synthesizedMethods) }
  else {}

/-! ### Code -/

/-- The statement that keeps a reflectable class from being renamed. -/
def exportLayout : Layout :=
  if p.options.exportReflectable && p.symbol.capabilities.reflectable then
    Layout.gap 2 ++
      Layout.doc [plainTag "Prevent renaming of class. Needed for reflection."] ++
      Layout.line [.verbatim (p.options.exportSymbolFn ++ "("), .quoted p.decl.name,
        .verbatim ", ", p.self, .verbatim ");"]
  else []

def classInfoLayout : Layout :=
  Layout.gap 2 ++
    Layout.doc [plainTag "Metadata", [], typeTag "@type" [.verbatim "Object.<string, Array.<Object>>"] ""] ++
    Layout.line (p.prototype p.options.classInfoMember ++ [.verbatim " = "] ++ p.classInfo.code ++
      [.verbatim ";"])

def reflectionLayout : Layout :=
  Layout.gap 3 ++
    Layout.doc [plainTag "Reflection", [], typeTag "@return" [.verbatim "Object.<string, Function>"] ""] ++
    p.reflection.layout (p.prototype p.options.reflectionMember ++ [.verbatim " = "]) ";"

end Lowering.ClassPlan
