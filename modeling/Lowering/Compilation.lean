import Lowering.Output.LoadUnit

/-! Compiling a program.

The symbol table comes first, and without one nothing is compiled. Then the classes of all
modules are emitted, each for itself and in whatever order they get their turn: the result of
a class goes into the slot of its position in the program. The modules are assembled in the
end, one after the other, each from as many of the results as it declares classes. So a
class that fails keeps only its own module from being assembled, and failures are reported
module by module in the order of the program. -/
namespace Lowering

/-- The result of a compilation that got a symbol table. -/
structure Compilation where
  /-- In program order, the modules that compiled. -/
  units : List LoadUnit
  /-- In program order, the failures of the others. -/
  errors : List Error
  table : SymbolTable
deriving Repr, Inhabited

/-- The results that succeeded, in order. -/
def successes {ε α : Type} (results : List (Except ε α)) : List α :=
  results.filterMap fun
    | .ok a => some a
    | .error _ => none

/-- The failures among results, in order. -/
def failures {ε α : Type} (results : List (Except ε α)) : List ε :=
  results.filterMap fun
    | .ok _ => none
    | .error e => some e

/-! ### Emitting classes -/

/-- A slot for the result of each class, empty until the class has been emitted. -/
abbrev Slots := List (Option (Except Error ClassOutput))

namespace Slots

/-- Emits the class at a position and puts the result into its slot. -/
def fill (classes : List ClassDecl) (t : SymbolTable) (o : Options) (slots : Slots) (i : Nat) :
    Slots :=
  match classes[i]? with
  | some c => slots.set i (some (c.emit t o))
  | none => slots

/-- The slots after the classes at the positions in `order` have been emitted. -/
def filled (classes : List ClassDecl) (t : SymbolTable) (o : Options) (order : List Nat) : Slots :=
  order.foldl (fill classes t o) (List.replicate classes.length none)

/-- The result for each class, or the failure of one that was not emitted. -/
def collect (classes : List ClassDecl) (slots : Slots) :
    Except (List Error) (List (Except Error ClassOutput)) :=
  (slots.zip classes).mapM fun (slot, c) =>
    match slot with
    | some result => .ok result
    | none => .error [.internal c.name "class was never emitted"]

end Slots

/-! ### Assembling modules -/

namespace Module

variable (m : Module) (t : SymbolTable) (o : Options)

/-- The code of the classes of a module, one result for each class. -/
def emitClasses : List (Except Error ClassOutput) := m.classes.map fun c => c.emit t o

/-- The unit of a module from the results of its classes, or what keeps it from compiling. -/
def conclude (results : List (Except Error ClassOutput)) : Except (List Error) LoadUnit :=
  match failures results with
  | [] => (m.assemble t o (successes results)).mapError ([·])
  | errors => .error errors

/-- The unit of a module, or what keeps it from compiling. -/
def compile : Except (List Error) LoadUnit := m.conclude t o (m.emitClasses t o)

end Module

/-- What modules make of the results of all their classes, which each of them in turn takes its
share of. -/
def concludeEach (t : SymbolTable) (o : Options) :
    List Module → List (Except Error ClassOutput) → List (Except (List Error) LoadUnit)
  | [], _ => []
  | m :: rest, results =>
    m.conclude t o (results.take m.classes.length) ::
      concludeEach t o rest (results.drop m.classes.length)

namespace Program

variable (p : Program)

/-- The units and the failures of the modules, given the results of all classes. -/
def assemble (t : SymbolTable) (o : Options) (results : List (Except Error ClassOutput)) :
    Compilation :=
  let concluded := concludeEach t o p.modules results
  { units := successes concluded, errors := (failures concluded).flatten, table := t }

/-- Compiles a program, emitting its classes in an order of their positions. Failures to build
the symbol table are failures of the run; those of classes and modules are part of the result. -/
def runInOrder (o : Options) (order : List Nat) : Except (List Error) Compilation := do
  let t ← SymbolTable.ofProgram p o.nameStyle
  let results ← (Slots.filled p.classes t o order).collect p.classes
  return p.assemble t o results

/-- Compiles a program. A run that is cancelled does nothing. -/
def run (o : Options) (cancelled : Bool) : Except (List Error) Compilation :=
  if cancelled then .error [.cancelled] else p.runInOrder o (List.range p.classes.length)

/-- Compiles a program; any failure is a failure of the whole. -/
def compile (o : Options) (cancelled : Bool) : Except (List Error) Compilation := do
  let result ← p.run o cancelled
  match result.errors with
  | [] => return result
  | errors => throw errors

end Program

end Lowering
