import Lowering.Name.Set
import Lowering.Options
import Lowering.Symbol.Table

/-! What a class needs at load time.

A class mentions its base, its interfaces, the types of its fields and accessors and of
its handlers' parameters, the types of the nodes below its root, and whatever its
expressions refer to. The types in method signatures stand in annotations alone and are
no dependencies. Every mentioned class but the class itself has to be registered. Where
they are registered, the class that builds change notifications is needed by a class
with bindable members, and the class that performs casts by one with casts. -/
namespace Lowering

/-- A class or interface that code mentions, and where it does. -/
structure Mention where
  name : Name
  location : Option Location
deriving DecidableEq, Repr, Inhabited

/-- The classes that an expression mentions, at a place. -/
def Expr.mentions (location : Option Location) (e : Expr) : List Mention :=
  e.references.map (⟨·, location⟩)

def TypeRef.mentions (location : Option Location) (t : TypeRef) : List Mention :=
  t.declared?.toList.map (⟨·, location⟩)

/-- The expressions that the statements hold. -/
def bodyExprs (body : List Stmt) : List Expr := body.filterMap (·.expr?)

/-- The expressions that the properties of a node hold. -/
def Node.exprs (n : Node) : List Expr :=
  n.properties.filterMap fun p =>
    match p.value with
    | .expression e => some e
    | _ => none

namespace ClassDecl

variable (c : ClassDecl)

/-! ### Expressions -/

/-- The nodes of the tree, if there is one, that the root leads to. -/
def nodes : List Node := (c.tree.map (·.reachable)).getD []

/-- The expressions of the class. -/
def exprs : List Expr :=
  c.fields.filterMap (·.initializer) ++ c.accessors.filterMap (·.initializer) ++
    c.methods.flatMap (fun m => bodyExprs m.body) ++ c.events.flatMap (fun e => bodyExprs e.body) ++
    c.nodes.flatMap (·.exprs)

def hasCast : Bool := c.exprs.any (·.hasCast)

/-! ### Mentions -/

/-- The mentions of a field or an accessor. -/
def slotMentions (type : TypeRef) (initializer : Option Expr) : List Mention :=
  type.mentions c.location ++ initializer.toList.flatMap (·.mentions c.location)

def methodMentions (m : Method) : List Mention :=
  (bodyExprs m.body).flatMap (·.mentions (m.location.or c.location))

def eventMentions (e : EventBinding) : List Mention :=
  let location := e.location.or c.location
  e.eventType.toList.flatMap (·.mentions location) ++
    (bodyExprs e.body).flatMap (·.mentions location)

/-- The mentions of a node; the type of the root is the class itself or its base. -/
def nodeMentions (t : Tree) (n : Node) : List Mention :=
  let location := n.location.or c.location
  (if n.key = t.root then [] else [⟨n.target, location⟩]) ++
    n.exprs.flatMap (·.mentions location)

/-- Every mention, in the order in which the class declares its parts. -/
def mentions : List Mention :=
  (c.base.toList ++ c.interfaces).map (⟨·, c.location⟩) ++
    c.fields.flatMap (fun f => c.slotMentions f.type f.initializer) ++
    c.accessors.flatMap (fun a => c.slotMentions a.type a.initializer) ++
    c.methods.flatMap c.methodMentions ++
    c.events.flatMap c.eventMentions ++
    c.tree.toList.flatMap fun t => t.reachable.flatMap (c.nodeMentions t)

/-! ### Dependencies -/

/-- The classes of the runtime that the generated code calls. -/
def supportNames (o : Options) : List Name :=
  (if c.hasBindableMembers then [o.changeEventClass] else []) ++
    (if c.hasCast then [o.languageHelper] else [])

/-- What the class needs, or the failure of the first mention of something that is not
registered. -/
def dependencies (t : SymbolTable) (o : Options) : Except Error NameSet :=
  match c.mentions.find? fun m => m.name ≠ c.name && !t.contains m.name with
  | some m => .error (.unresolvedSymbol m.name c.name m.location)
  | none =>
    let needed := c.mentions.map (·.name) ++ (c.supportNames o).filter t.contains
    .ok (.ofList (needed.filter (· ≠ c.name)))

end ClassDecl

end Lowering
