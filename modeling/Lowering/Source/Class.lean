import Lowering.Source.Tree

/-! Class declarations.

A class or an interface with everything that its generated code depends on: fields,
accessor properties, methods, the declarative tree of a markup class with its event
bindings, and flags for the metadata. -/
namespace Lowering

/-- Who may use a class or a member. -/
inductive Visibility where
  | everyone
  /-- The declaring package. -/
  | package
  | subclasses
  /-- The declaring class alone. -/
  | owner
deriving DecidableEq, Repr, Inhabited

/-- The visibility as the source writes it. -/
def Visibility.word : Visibility → String
  | .everyone => "public"
  | .package => "internal"
  | .subclasses => "protected"
  | .owner => "private"

/-- What a declaration declares. -/
inductive Kind where
  /-- A class, which can have instances. -/
  | concrete
  | interface
deriving DecidableEq, Repr, Inhabited

/-- The kind as the source writes it. -/
def Kind.word : Kind → String
  | .concrete => "class"
  | .interface => "interface"

/-- A plain field, of the instances or of the class itself. -/
structure Field where
  name : String
  type : TypeRef
  visibility : Visibility := .everyone
  isStatic : Bool := false
  initializer : Option Expr := none
deriving Repr, Inhabited

/-- A property that is read and written by calls and keeps its value in a field. -/
structure Accessor where
  name : String
  type : TypeRef
  /-- The setter tells listeners about a change. -/
  bindable : Bool := false
  visibility : Visibility := .everyone
  initializer : Option Expr := none
deriving Repr, Inhabited

structure Param where
  name : String
  type : TypeRef
deriving DecidableEq, Repr, Inhabited

structure Method where
  name : String
  params : List Param := []
  returnType : TypeRef := .void
  visibility : Visibility := .everyone
  isStatic : Bool := false
  body : List Stmt := []
  location : Option Location := none
deriving Repr, Inhabited

/-- An event that is handled inline at a node of the tree. -/
structure EventBinding where
  node : NodeKey
  event : String
  /-- The declared type of the handler's parameter. -/
  eventType : Option TypeRef := none
  body : List Stmt := []
  location : Option Location := none
deriving Repr, Inhabited

/-- One more name under which the class metadata lists a class. -/
structure Alias where
  name : String
  qualified : Name
  kind : Kind := .concrete
deriving DecidableEq, Repr, Inhabited

structure ClassFlags where
  /-- The class describes its members to reflection. -/
  reflectable : Bool := true
  aliases : List Alias := []
deriving DecidableEq, Repr, Inhabited

/-- The declaration of a class or an interface. -/
structure ClassDecl where
  name : Name
  kind : Kind := .concrete
  visibility : Visibility := .everyone
  base : Option Name := none
  /-- Implemented by a class, extended by an interface. -/
  interfaces : List Name := []
  fields : List Field := []
  accessors : List Accessor := []
  methods : List Method := []
  events : List EventBinding := []
  tree : Option Tree := none
  flags : ClassFlags := {}
  location : Option Location := none
deriving Repr, Inhabited

/-- Whether some setter of the class announces changes: that of a bindable accessor,
or that of a node to which the source gives an identity. -/
def ClassDecl.hasBindableMembers (c : ClassDecl) : Bool :=
  c.accessors.any (·.bindable) ||
    c.tree.any fun t => t.reachable.any (·.id.isSome)

end Lowering
