import Lowering.Code.Expression
import Lowering.Dependency
import Lowering.Member.AccessorPair
import Lowering.Member.Handler

/-! What is decided about a class before its code is written.

A class is resolved, its dependencies are collected, its tree is linearized, and its
accessor pairs and handlers are laid down; the first of these that fails decides the
failure. When private members are mangled, those of the class get their owner's name. -/
namespace Lowering

/-- A class with everything that its code is made from. -/
structure ClassPlan where
  decl : ClassDecl
  symbol : Symbol
  options : Options
  /-- What the code needs at load time. -/
  dependencies : NameSet
  linearized : Option Linearized
  accessors : List AccessorPair
  handlers : List Handler
deriving Inhabited

/-- The plan of a class. -/
def ClassDecl.plan (c : ClassDecl) (t : SymbolTable) (o : Options) : Except Error ClassPlan := do
  let symbol ← (t.resolve c.name c.name).mapError (·.orLocation c.location)
  let dependencies ← c.dependencies t o
  let linearized ← c.linearize
  let accessors ← c.accessorPairs o linearized
  let handlers ← c.eventHandlers linearized
  return { decl := c, symbol, options := o, dependencies, linearized, accessors, handlers }

/-- The private fields and methods of the instances, or of the class itself. -/
def ClassDecl.privateNames (c : ClassDecl) (static : Bool) : List String :=
  (c.fields.filter fun f => f.visibility = .owner && f.isStatic = static).map (·.name) ++
    (c.methods.filter fun m => m.visibility = .owner && m.isStatic = static).map (·.name)

/-- The emitted names of the private members, where these are mangled. -/
def ClassDecl.mangledNames (c : ClassDecl) (o : Options) (static : Bool) : OrderedMap String :=
  if o.mangledPrivates then .ofList ((c.privateNames static).map fun n => (n, privateName c.name n))
  else .empty

/-- The scope of the expressions of a class. -/
def ClassDecl.scope (c : ClassDecl) (o : Options) : Scope where
  owner := c.name
  languageHelper := o.languageHelper
  renames := c.mangledNames o false
  staticRenames := c.mangledNames o true

namespace ClassPlan

variable (p : ClassPlan)

def scope : Scope := p.decl.scope p.options

/-- The identifier of the class. -/
def self : Piece := .name .support p.decl.name

/-- The prototype of the class with the name of a member. -/
def prototype (name : String) : Code := [p.self, .verbatim (".prototype." ++ name)]

end ClassPlan

end Lowering
