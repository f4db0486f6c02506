import Lowering.Linearize
import Lowering.Member.Setter
import Lowering.Options

/-! Accessor pairs.

A class gets a getter and a setter for each accessor that it declares and for each node
to which the source gives an identity. A declared pair keeps its value in a field of
its own; the pair of an identity reads and writes the field that the graph builder
assigns, and its setter announces changes. An identity may not have the name of a
declared member, nor one that a pair occupies. -/
namespace Lowering

/-- What a pair is made for. -/
inductive PairOrigin where
  | declared
  /-- The identity that the source gives to a node. -/
  | identity
deriving DecidableEq, Repr, Inhabited

/-- A getter and a setter with the field behind them. -/
structure AccessorPair where
  property : String
  /-- The field that holds the value. -/
  storage : String
  type : TypeRef
  visibility : Visibility
  initializer : Option Expr
  bindable : Bool
  origin : PairOrigin
deriving Repr, Inhabited

namespace AccessorPair

def getter (p : AccessorPair) : String := getterName p.property

def setter (p : AccessorPair) : String := setterName p.property

/-- What the setter does. -/
def behavior (p : AccessorPair) : Setter := ⟨p.property, p.bindable⟩

/-- The pair of an accessor that `owner` declares. A private one has its owner's name
in that of its field when private members are mangled. -/
def ofDeclared (owner : Name) (mangled : Bool) (a : Accessor) : AccessorPair where
  property := a.name
  storage :=
    if mangled && a.visibility = .owner then privateName owner (storageName a.name)
    else storageName a.name
  type := a.type
  visibility := a.visibility
  initializer := a.initializer
  bindable := a.bindable
  origin := .declared

/-- The pair of an identity. -/
def ofIdentity (b : BindingField) : AccessorPair where
  property := b.name
  storage := b.name
  type := .declared b.target
  visibility := .everyone
  initializer := none
  bindable := true
  origin := .identity

/-- The member names that a declared pair occupies. -/
def memberNames (p : AccessorPair) : List String := [p.getter, p.setter, p.storage]

end AccessorPair

/-- The identities that the source gives. -/
def Linearized.exposed (l : Linearized) : List BindingField := l.bindings.filter (·.exposed)

namespace ClassDecl

variable (c : ClassDecl)

/-- The tree of a markup class with what else is known of it. -/
def markup? : Option Markup :=
  c.tree.map fun tree => { owner := c.name, tree, events := c.events, location := c.location }

/-- The instructions of a markup class; other classes have none. -/
def linearize : Except Error (Option Linearized) :=
  match c.markup? with
  | some m => m.linearize.map some
  | none => .ok none

/-- The pairs of the declared accessors, in declaration order. -/
def declaredPairs (o : Options) : List AccessorPair :=
  c.accessors.map (.ofDeclared c.name o.mangledPrivates)

/-- The names that an identity must not have. -/
def takenNames (declared : List AccessorPair) (exposed : List BindingField) : List String :=
  c.fields.map (·.name) ++ c.accessors.map (·.name) ++ c.methods.map (·.name) ++
    declared.flatMap (·.memberNames) ++
    exposed.flatMap fun b => [getterName b.name, setterName b.name]

/-- The pairs of the class: the declared ones, then those of the identities in the order
of the instructions. -/
def accessorPairs (o : Options) (l : Option Linearized) : Except Error (List AccessorPair) :=
  let declared := c.declaredPairs o
  let exposed := (l.map (·.exposed)).getD []
  let taken := c.takenNames declared exposed
  match exposed.find? fun b => b.name ∈ taken with
  | some b => .error (.duplicateIdentity c.name b.name c.location)
  | none => .ok (declared ++ exposed.map .ofIdentity)

end ClassDecl

end Lowering
