import Lowering.Source.Tree

/-! Failures of code generation.

Each constructor is one cause. A failure has a message, a stable code, the name it is
reported against and, where the source is known, a place. -/
namespace Lowering

/-- Why a declarative tree is inconsistent. -/
inductive TreeFault where
  | keyUsedTwice (key : NodeKey)
  | rootWithId
  /-- A property whose name identity bindings use. -/
  | reservedProperty (name : String)
  /-- A property of the root that stands for the content which the root also has. -/
  | contentTwice (name : String)
  | nestedTooDeep (levels : Nat)
  /-- An inconsistency that is told in words. -/
  | other (reason : String)
deriving DecidableEq, Repr, Inhabited

def TreeFault.message : TreeFault → String
  | .keyUsedTwice key => s!"node key {key.text} is used twice"
  | .rootWithId => "the root node cannot carry an identity binding"
  | .reservedProperty name => "property '" ++ name ++ "' is reserved for identity bindings"
  | .contentTwice name => "property '" ++ name ++ "' conflicts with default content"
  | .nestedTooDeep levels => s!"nodes are nested deeper than {levels} levels"
  | .other reason => reason

/-- Why code generation fails. -/
inductive Error where
  /-- Two different definitions have one name. -/
  | duplicateSymbol (name : Name) (first second : Option Location)
  /-- A name that is referred to is not declared. -/
  | unresolvedSymbol (name source : Name) (location : Option Location)
  /-- A class is its own ancestor; the cycle ends with its first member. -/
  | inheritanceCycle (cycle : List Name) (location : Option Location)
  /-- A node contains itself. -/
  | cyclicTree (owner : Name) (node : NodeKey) (target : Name) (location : Option Location)
  /-- A node has two parents. -/
  | sharedNode (owner : Name) (node : NodeKey) (target : Name) (location : Option Location)
  /-- A key that is referred to belongs to no node. -/
  | danglingNode (owner : Name) (node : NodeKey) (location : Option Location)
  | malformedTree (owner : Name) (fault : TreeFault) (location : Option Location)
  /-- An identity binding uses a name that is taken. -/
  | duplicateIdentity (owner : Name) (id : String) (location : Option Location)
  /-- An event is bound to no node of the tree. -/
  | unknownEventTarget (owner : Name) (event : String) (node : NodeKey)
      (location : Option Location)
  | emptyModule (module : Name) (location : Option Location)
  | cancelled
  /-- A stage was given what no earlier stage produces. -/
  | internal (owner : Name) (reason : String)
deriving DecidableEq, Repr, Inhabited

namespace Error

def message : Error → String
  | duplicateSymbol name first second =>
    "Duplicate symbol: " ++ name.text ++ " is defined at " ++ Location.textOrUnknown first ++
      " and " ++ Location.textOrUnknown second
  | unresolvedSymbol name source _ =>
    "Unresolved symbol: " ++ name.text ++ " (referenced from " ++ source.text ++ ")"
  | inheritanceCycle cycle _ =>
    "Inheritance cycle: " ++ " -> ".intercalate (cycle.map (·.text))
  | cyclicTree owner node target _ =>
    "Cyclic declarative tree in " ++ owner.text ++ ": node " ++ node.text ++ " (" ++ target.text ++
      ") contains itself"
  | sharedNode owner node target _ =>
    "Shared declarative node in " ++ owner.text ++ ": node " ++ node.text ++ " (" ++ target.text ++
      ") is reached twice"
  | danglingNode owner node _ =>
    "Dangling node reference in " ++ owner.text ++ ": node " ++ node.text ++ " does not exist"
  | malformedTree owner fault _ =>
    "Malformed declarative tree in " ++ owner.text ++ ": " ++ fault.message
  | duplicateIdentity owner id _ =>
    "Duplicate identity binding '" ++ id ++ "' in " ++ owner.text
  | unknownEventTarget owner event node _ =>
    "Event '" ++ event ++ "' in " ++ owner.text ++ " targets unknown node " ++ node.text
  | emptyModule module _ => "Module " ++ module.text ++ " declares no classes"
  | cancelled => "Compilation cancelled"
  | internal owner reason => "Internal code generator error in " ++ owner.text ++ ": " ++ reason

def code : Error → String
  | duplicateSymbol .. => "K0001"
  | unresolvedSymbol .. => "K0002"
  | inheritanceCycle .. => "K0003"
  | cyclicTree .. => "K0101"
  | sharedNode .. => "K0102"
  | danglingNode .. => "K0103"
  | malformedTree .. => "K0104"
  | duplicateIdentity .. => "K0105"
  | unknownEventTarget .. => "K0106"
  | emptyModule .. => "K0201"
  | cancelled => "K0900"
  | internal .. => "K0999"

/-- Where the source is at fault, when that is known. -/
def location : Error → Option Location
  | duplicateSymbol _ first second => second.or first
  | unresolvedSymbol _ _ l | inheritanceCycle _ l | cyclicTree _ _ _ l | sharedNode _ _ _ l
  | danglingNode _ _ l | malformedTree _ _ l | duplicateIdentity _ _ l
  | unknownEventTarget _ _ _ l | emptyModule _ l => l
  | cancelled | internal .. => none

/-- The name that the failure is reported against. -/
def subject : Error → Option Name
  | duplicateSymbol name _ _ => some name
  | unresolvedSymbol _ source _ => some source
  | inheritanceCycle cycle _ => cycle.head?
  | cyclicTree owner _ _ _ | sharedNode owner _ _ _ | danglingNode owner _ _
  | malformedTree owner _ _ | duplicateIdentity owner _ _ | unknownEventTarget owner _ _ _
  | internal owner _ => some owner
  | emptyModule module _ => some module
  | cancelled => none

/-- The failure with a place, unless it has one or cannot have one. -/
def orLocation (fallback : Option Location) : Error → Error
  | unresolvedSymbol name source l => unresolvedSymbol name source (l.or fallback)
  | inheritanceCycle cycle l => inheritanceCycle cycle (l.or fallback)
  | cyclicTree owner node target l => cyclicTree owner node target (l.or fallback)
  | sharedNode owner node target l => sharedNode owner node target (l.or fallback)
  | danglingNode owner node l => danglingNode owner node (l.or fallback)
  | malformedTree owner fault l => malformedTree owner fault (l.or fallback)
  | duplicateIdentity owner id l => duplicateIdentity owner id (l.or fallback)
  | unknownEventTarget owner event node l => unknownEventTarget owner event node (l.or fallback)
  | emptyModule module l => emptyModule module (l.or fallback)
  | e => e

/-- Whether the failures of a compilation are that it was cancelled. -/
def anyCancelled (errors : List Error) : Bool := errors.any (· = cancelled)

/-- The failures of one compilation in a sentence. -/
def summary (errors : List Error) : String :=
  match errors with
  | [] => "0 error(s) during code generation"
  | first :: _ => s!"{errors.length} error(s) during code generation; first: {first.message}"

end Error

end Lowering
