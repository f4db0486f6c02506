import Lowering.Source.Class

/-! Modules and programs.

A program is a list of modules, each holding the classes of one source file, and the
declarations of what is compiled elsewhere. -/
namespace Lowering

/-- What the other parts of a program may know of a class or an interface. -/
structure Declaration where
  name : Name
  kind : Kind := .concrete
  visibility : Visibility := .everyone
  base : Option Name := none
  interfaces : List Name := []
  reflectable : Bool := false
  /-- Declares members whose setters announce changes. -/
  bindable : Bool := false
  dispatchesEvents : Bool := false
  location : Option Location := none
deriving DecidableEq, Repr, Inhabited

namespace Declaration

def ofClass (c : ClassDecl) : Declaration where
  name := c.name
  kind := c.kind
  visibility := c.visibility
  base := c.base
  interfaces := c.interfaces
  reflectable := c.flags.reflectable
  bindable := c.hasBindableMembers
  location := c.location

/-- Whether two declarations define the same, wherever they stand. -/
def sameDefinition (a b : Declaration) : Bool :=
  { a with location := none } == { b with location := none }

end Declaration

/-- The classes of one source file. -/
structure Module where
  name : Name
  /-- The path of the source file. -/
  source : Option String := none
  /-- The imports as written, which nothing depends on. -/
  imports : List Name := []
  classes : List ClassDecl := []
deriving Repr, Inhabited

/-- The module that holds one class and has its name. -/
def Module.single (c : ClassDecl) : Module where
  name := c.name
  source := c.location.map (·.file)
  classes := [c]

/-- The whole input of one compilation. -/
structure Program where
  /-- Declared here and compiled elsewhere. -/
  foreign : List Declaration := []
  modules : List Module := []
deriving Repr, Inhabited

/-- Every class of the program, module by module. -/
def Program.classes (p : Program) : List ClassDecl :=
  p.modules.flatMap (·.classes)

/-- Every declaration of the program: the foreign ones, then those of its classes. -/
def Program.declarations (p : Program) : List Declaration :=
  p.foreign ++ p.classes.map .ofClass

end Lowering
