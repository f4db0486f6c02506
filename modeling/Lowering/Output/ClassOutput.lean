import Lowering.Output.Description
import Lowering.Output.Members

/-! The code of one class.

A class is its constructor, its export, its metadata, its members and its reflection, in
this order; an interface has no members besides the methods beside its constructor. -/
namespace Lowering

/-- Everything that is produced for a class. -/
structure ClassOutput where
  plan : ClassPlan
  /-- The identifier of the class in emitted code. -/
  identifier : String
  text : String
deriving Inhabited

namespace ClassPlan

/-- The whole code of the class. -/
def layout (p : ClassPlan) : Layout :=
  match p.decl.kind with
  | .interface =>
    p.interfaceLayout ++ p.exportLayout ++ p.classInfoLayout ++ p.reflectionLayout
  | .concrete =>
    p.constructorLayout ++ p.exportLayout ++ p.classInfoLayout ++ p.membersLayout ++
      p.reflectionLayout

end ClassPlan

namespace ClassOutput

def name (c : ClassOutput) : Name := c.plan.decl.name

def dependencies (c : ClassOutput) : NameSet := c.plan.dependencies

end ClassOutput

/-- The code of a class. -/
def ClassDecl.emit (c : ClassDecl) (t : SymbolTable) (o : Options) : Except Error ClassOutput := do
  let plan ← c.plan t o
  let text ← t.writeLayout c.name plan.layout
  return { plan, identifier := plan.symbol.outputName, text }

end Lowering
