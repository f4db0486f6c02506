import Lowering.Output.Constructor

/-! The members of a class outside its constructor: static fields, event handlers,
accessor pairs and methods. -/
namespace Lowering.ClassPlan

variable (p : ClassPlan)

/-- The statements of a method. -/
def bodyLayout (body : List Stmt) : Layout :=
  Layout.nested (body.flatMap fun s => Layout.line (s.code p.scope))

def staticFieldLayout (f : Field) : Layout :=
  Layout.gap 2 ++
    Layout.doc (f.visibility.fieldTags ++ [typeTag "@type" (f.type.code .support) ""]) ++
    p.assignFirst [p.self, .verbatim ("." ++ p.scope.staticName f.name)] f.type f.initializer

/-- The head of a generated method, with its opening brace on a line of its own. -/
def methodHead (tags : List Code) (name params : String) : Layout :=
  Layout.gap 2 ++ Layout.doc tags ++
    Layout.line (p.prototype name ++ [.verbatim (" = function(" ++ params ++ ")")]) ++
    Layout.say "\x7b"

def handlerLayout (h : Handler) : Layout :=
  let type := (h.eventType.map (·.code .support)).getD [.verbatim "*"]
  p.methodHead [plainTag "@export", typeTag "@param" type (" " ++ eventParam)] h.name eventParam ++
    p.bodyLayout h.body ++ Layout.say "\x7d;"

def getterLayout (a : AccessorPair) : Layout :=
  p.methodHead [a.visibility.tag, typeTag "@return" (a.type.code .support) ""] a.getter "" ++
    Layout.nested (Layout.say ("return this." ++ a.storage ++ ";")) ++ Layout.say "\x7d;"

/-- The statement that stores the value of a setter. -/
def storeLayout (a : AccessorPair) : Layout := Layout.say ("this." ++ a.storage ++ " = value;")

/-- Stores and announces a value that differs from the stored one. -/
def announceLayout (a : AccessorPair) : Layout :=
  Layout.say ("var oldValue = this." ++ a.storage ++ ";") ++
    Layout.say "if (value != oldValue) \x7b" ++
    Layout.nested (storeLayout a ++ Layout.line [.verbatim "this.dispatchEvent(",
      .name .support p.options.changeEventClass,
      .verbatim (".createUpdateEvent(this, " ++ Text.quote a.property ++ ", oldValue, value));")]) ++
    Layout.say "\x7d"

def setterLayout (a : AccessorPair) : Layout :=
  p.methodHead [a.visibility.tag, typeTag "@param" (a.type.code .support) " value"] a.setter "value" ++
    Layout.nested (if a.bindable then p.announceLayout a else storeLayout a) ++ Layout.say "\x7d;"

def accessorLayout (a : AccessorPair) : Layout := p.getterLayout a ++ p.setterLayout a

/-- What a method is assigned to. -/
def methodTarget (m : Method) : Code :=
  if m.isStatic then [p.self, .verbatim ("." ++ p.scope.staticName m.name)]
  else p.prototype (p.scope.memberName m.name)

def methodLayout (m : Method) : Layout :=
  Layout.gap 2 ++ Layout.doc (m.visibility.tag :: m.signatureTags) ++
    Layout.line (p.methodTarget m ++ [.verbatim (" = function(" ++ m.paramList ++ ") \x7b")]) ++
    p.bodyLayout m.body ++ Layout.say "\x7d;"

/-- The members, in the order in which they are written. -/
def membersLayout : Layout :=
  (p.decl.fields.filter (·.isStatic)).flatMap p.staticFieldLayout ++
    p.handlers.flatMap p.handlerLayout ++ p.accessors.flatMap p.accessorLayout ++
    p.decl.methods.flatMap p.methodLayout

end Lowering.ClassPlan
