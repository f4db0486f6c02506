import Lowering.Compilation
import Lowering.Json.Writer

/-! Reports on dependencies.

A report lists what each class of a program depends on, or each class of the modules of
one name, in the order of the program. There is a report only if the dependencies of
every class in it can be found. -/
namespace Lowering

/-- The dependencies of classes, by class name. -/
abbrev DependencyReport := OrderedMap NameSet

namespace DependencyReport

/-- The lines of a class: its name and under it, set in, what it depends on. -/
def classText (name : String) (needed : NameSet) : String :=
  name ++ "\n" ++ String.join (needed.names.map fun n => "  " ++ n.text ++ "\n")

def text (r : DependencyReport) : String :=
  String.join (r.entries.map fun (name, needed) => classText name needed)

def encode (r : DependencyReport) : Json :=
  Json.fields (r.entries.map fun (name, needed) => (name, Json.list Name.encode needed.names))

/-- The report as indented JSON. -/
def json (r : DependencyReport) : String := r.encode.indented 0 ++ "\n"

end DependencyReport

namespace Program

variable (p : Program)

/-- The classes of the modules with a name, or without one, of all modules. -/
def classesOf (only : Option Name) : List ClassDecl :=
  (p.modules.filter fun m => only.all (· = m.name)).flatMap (·.classes)

/-- The report, or every failure in the order of the program. -/
def dependencyReport (o : Options) (only : Option Name) : Except (List Error) DependencyReport := do
  let t ← SymbolTable.ofProgram p o.nameStyle
  let results := (p.classesOf only).map fun c =>
    (c.dependencies t o).map fun needed => (c.name.text, needed)
  match failures results with
  | [] => return .ofList (successes results)
  | errors => throw errors

end Program

end Lowering
