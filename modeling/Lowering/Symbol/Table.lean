import Lowering.Options
import Lowering.Symbol.Registry
import Lowering.Symbol.Inheritance

/-! The symbol table.

Freezing a registry resolves every base and interface, refuses classes that are their
own ancestors, gives each declaration the identifier that emitted code uses for it, and
lets capabilities flow from bases to subclasses. Flattened identifiers may coincide;
of the names with one flattened form the first in the order of names keeps it and the
others get `$1`, `$2`, … after it. -/
namespace Lowering

/-- What instances of a class can do, inherited from base to subclass. -/
structure Capabilities where
  reflectable : Bool
  bindable : Bool
  dispatchesEvents : Bool
deriving DecidableEq, Repr, Inhabited

namespace Capabilities

def union (a b : Capabilities) : Capabilities where
  reflectable := a.reflectable || b.reflectable
  bindable := a.bindable || b.bindable
  dispatchesEvents := a.dispatchesEvents || b.dispatchesEvents

end Capabilities

/-- The capabilities that a declaration has of its own. -/
def Declaration.capabilities (d : Declaration) : Capabilities where
  reflectable := d.reflectable
  bindable := d.bindable
  dispatchesEvents := d.dispatchesEvents

/-- A declaration with its references resolved. -/
structure Symbol where
  id : Nat
  declaration : Declaration
  /-- The id of the direct base class. -/
  base : Option Nat
  /-- The ids of the interfaces that are named directly. -/
  interfaces : List Nat
  /-- The symbol's own capabilities and those of every ancestor. -/
  capabilities : Capabilities
  /-- The identifier in emitted code. -/
  outputName : String
deriving DecidableEq, Repr, Inhabited

def Symbol.name (s : Symbol) : Name := s.declaration.name

/-- The id as it is shown. -/
def Symbol.label (s : Symbol) : String := s!"sym{s.id}"

structure SymbolTable where
  symbols : List Symbol
  style : NameStyle
deriving DecidableEq, Repr, Inhabited

/-! ### Freezing -/

namespace Registry

variable (r : Registry)

def unresolvedFrom (d : Declaration) (n : Name) : Option Error :=
  if (r.id? n).isSome then none else some (.unresolvedSymbol n d.name d.location)

/-- The references of a declaration to nothing, the base before the interfaces. -/
def unresolved (d : Declaration) : List Error :=
  (d.base.toList ++ d.interfaces).filterMap (r.unresolvedFrom d)

def baseLinks : BaseLinks :=
  r.declarations.map fun d => d.base.bind r.id?

def nameAt (i : Nat) : Name := (r.declarations[i]?.map (·.name)).getD default

/-- The member of a cycle that comes first in the order of names. -/
def leastOf : List Nat → Nat
  | [] => 0
  | i :: rest => rest.foldl (fun least j => if r.nameAt j < r.nameAt least then j else least) i

/-- A cycle from its least member around to it again. -/
def cycleError (cycle : List Nat) : Error :=
  let least := r.leastOf cycle
  .inheritanceCycle ((rotateTo least cycle ++ [least]).map r.nameAt)
    (r.declarations[least]?.bind (·.location))

/-- Every cycle of base classes, once, in the order in which the chains of the
declarations run into them. -/
def cycles : List Error :=
  ((List.range r.size).filterMap fun i => (r.baseLinks.cycle? i).map r.cycleError).foldl
    (fun found e => if e ∈ found then found else found ++ [e]) []

/-- How many declarations with the same flattened name come before a declaration. -/
def rank (d : Declaration) : Nat :=
  r.declarations.countP fun e => e.name.flat = d.name.flat && decide (e.name < d.name)

/-- The identifier of a declaration in emitted code. -/
def outputName (style : NameStyle) (d : Declaration) : String :=
  match style with
  | .dotted => d.name.text
  | .flattened =>
    if r.rank d = 0 then d.name.flat else d.name.flat ++ "$" ++ (r.rank d).repr

/-- The capabilities at a position, with those of every base above it. -/
def capabilitiesAt (i : Nat) : Capabilities :=
  let own (j : Nat) : Capabilities := (r.declarations[j]?.map (·.capabilities)).getD default
  (r.baseLinks.chain i).foldl (fun c j => c.union (own j)) (own i)

def symbol (style : NameStyle) (d : Declaration) (i : Nat) : Symbol where
  id := i
  declaration := d
  base := d.base.bind r.id?
  interfaces := d.interfaces.filterMap r.id?
  capabilities := r.capabilitiesAt i
  outputName := r.outputName style d

/-- Everything that keeps the registry from being frozen. -/
def faults : List Error := r.declarations.flatMap r.unresolved ++ r.cycles

/-- The table of the registered declarations. -/
def freeze (style : NameStyle) : Except (List Error) SymbolTable :=
  match r.faults with
  | [] => .ok ⟨r.declarations.zipIdx.map fun (d, i) => r.symbol style d i, style⟩
  | errors => .error errors

end Registry

/-! ### Looking up -/

namespace SymbolTable

variable (t : SymbolTable)

def find? (n : Name) : Option Symbol := t.symbols.find? (·.name = n)

/-- The id of a name. -/
def id? (n : Name) : Option Nat := (t.find? n).map (·.id)

def contains (n : Name) : Bool := (t.find? n).isSome

def outputName? (n : Name) : Option String := (t.find? n).map (·.outputName)

/-- The identifier that emitted code uses for a name; one that is not registered stands
for itself. -/
def spelling (n : Name) : String := (t.outputName? n).getD (t.style.plain n)

/-- The symbol that a reference from `source` means. -/
def resolve (n source : Name) : Except Error Symbol :=
  match t.find? n with
  | some s => .ok s
  | none => .error (.unresolvedSymbol n source none)

/-- The ids of the base classes of a symbol, from the direct one up. -/
def chain (s : Symbol) : List Nat := BaseLinks.chain (t.symbols.map (·.base)) s.id

/-- Puts the id of a symbol to those of its simple name. -/
def addSimple (groups : OrderedMap (List Nat)) (s : Symbol) : OrderedMap (List Nat) :=
  groups.insert s.name.simple ((groups.get? s.name.simple).getD [] ++ [s.id])

/-- The ids of the symbols by their simple names. -/
def bySimple : OrderedMap (List Nat) := t.symbols.foldl addSimple .empty

/-- The ids of the symbols with a simple name. -/
def named (simple : String) : List Nat := (t.bySimple.get? simple).getD []

/-- The table of a whole program. -/
def ofProgram (p : Program) (style : NameStyle) : Except (List Error) SymbolTable :=
  match Registry.empty.registerProgram p with
  | (r, []) => r.freeze style
  | (_, errors) => .error errors

end SymbolTable

end Lowering
