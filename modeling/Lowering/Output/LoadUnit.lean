import Lowering.Output.ClassOutput
import Lowering.Path

/-! The file of one module.

A unit says what it provides, which is its module, and what has to be loaded before it:
whatever its classes need and the module does not declare itself, in the order of names.
The code of its classes follows in the order in which they are declared. -/
namespace Lowering

/-- What the loader gets for one module. -/
structure LoadUnit where
  module : Name
  /-- The identifier that the unit provides. -/
  provide : String
  /-- The identifiers that it requires, in the order of their names. -/
  requires : List String
  /-- Where it is written, relative to the output directory. -/
  path : Path
  text : String
deriving DecidableEq, Repr, Inhabited

/-- Whether the unit requires an identifier. -/
def LoadUnit.isRequired (u : LoadUnit) (identifier : String) : Bool := identifier ∈ u.requires

namespace Module

variable (m : Module)

/-- What the module declares: its classes and itself. -/
def owned : List Name := m.classes.map (·.name) ++ [m.name]

/-- What the classes need from outside of the module. -/
def required (outputs : List ClassOutput) : NameSet :=
  (NameSet.ofList (outputs.flatMap (·.dependencies.names))).filter fun n => !decide (n ∈ m.owned)

/-- The comment at the head of the file. -/
def overview : Layout :=
  let origin := match m.source with
    | some source => "Generated by Kestrel from " ++ source
    | none => "Generated by Kestrel"
  Layout.doc [plainTag origin, plainTag m.name.text, [], plainTag "@fileoverview", [],
    plainTag "@suppress \x7bcheckTypes|accessControls\x7d"] ++ Layout.gap 1

/-- A call with the identifier of a name. -/
def loaderCall (function : String) (n : Name) : Layout :=
  Layout.line [.verbatim (function ++ "("), .quoted n, .verbatim ");"]

/-- The calls that require names. -/
def requireCalls (o : Options) (names : List Name) : Layout :=
  if names.isEmpty then []
  else names.flatMap (loaderCall o.requireFn) ++ Layout.gap 1

/-- The lines of the file. -/
def unitLayout (o : Options) (outputs : List ClassOutput) : Layout :=
  (if o.fileOverview then m.overview else []) ++
    loaderCall o.provideFn m.name ++ Layout.gap 1 ++
    requireCalls o (m.required outputs).names ++
    outputs.flatMap fun c => Layout.gap 1 ++ Layout.lines c.text

/-- The place of an empty module: the start of its source file. -/
def start : Option Location := m.source.map fun file => { file, line := 1, column := 1 }

/-- The unit of a module, from the code of its classes in declaration order. -/
def assemble (t : SymbolTable) (o : Options) (outputs : List ClassOutput) : Except Error LoadUnit :=
  if m.classes.isEmpty then .error (.emptyModule m.name m.start)
  else if outputs.map (·.name) ≠ m.classes.map (·.name) then
    .error (.internal m.name "class bodies do not match the module's declarations")
  else .ok {
    module := m.name
    provide := t.spelling m.name
    requires := (m.required outputs).names.map t.spelling
    path := m.name.outputPath
    text := (m.unitLayout o outputs).text t.spelling 0 }

end Module

end Lowering
