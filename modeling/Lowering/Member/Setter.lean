/-! What a setter does.

A plain setter stores whatever it is given. A bindable one compares first: a value
equal to the stored one changes nothing, and any other is stored and announced to the
listeners with the old value. -/
namespace Lowering

/-- The announcement of one change. -/
structure Change (V : Type) where
  property : String
  old : V
  new : V
deriving DecidableEq, Repr

/-- What one call of a setter does. -/
inductive SetOutcome (V : Type) where
  | unchanged
  | stored (value : V) (change : Option (Change V))
deriving DecidableEq, Repr

/-- The setter of a property. -/
structure Setter where
  property : String
  /-- Compares, stores and announces; otherwise it only stores. -/
  bindable : Bool
deriving DecidableEq, Repr, Inhabited

variable {V : Type}

namespace SetOutcome

/-- The announcement that is made, if one is. -/
def change? : SetOutcome V → Option (Change V)
  | unchanged => none
  | stored _ change => change

/-- The value that is stored afterwards, where `before` was. -/
def valueAfter (before : V) : SetOutcome V → V
  | unchanged => before
  | stored value _ => value

end SetOutcome

namespace Setter

/-- The outcome of setting `incoming` where `current` is stored. -/
def apply [BEq V] (s : Setter) (current incoming : V) : SetOutcome V :=
  if !s.bindable then .stored incoming none
  else if current == incoming then .unchanged
  else .stored incoming (some ⟨s.property, current, incoming⟩)

/-- The outcomes of setting values one after the other. -/
def run [BEq V] (s : Setter) (current : V) : List V → List (SetOutcome V)
  | [] => []
  | incoming :: rest =>
    let outcome := s.apply current incoming
    outcome :: s.run (outcome.valueAfter current) rest

end Setter

end Lowering
