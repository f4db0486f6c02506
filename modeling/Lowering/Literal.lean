import Lowering.Decimal.Shortest
import Lowering.Text.Quoted

/-! Literal values.

A number is an integer of 64 bits or a floating-point number, and the two are told
apart: the integer one is not the number one. -/
namespace Lowering

/-- A literal value of the source. -/
inductive Literal where
  | null
  | bool (value : Bool)
  | int (value : Int64)
  | number (value : Binary64)
  | string (value : String)
deriving DecidableEq, Repr, Inhabited

namespace Literal

/-- The integer literal of an integer that 64 bits hold. -/
def ofInt? (n : Int) : Option Literal :=
  if Int64.minValue.toInt ≤ n ∧ n ≤ Int64.maxValue.toInt then some (.int (Int64.ofInt n)) else none

/-- Equality as the running program compares: numbers by value, the rest as written. -/
def sameValue : Literal → Literal → Bool
  | .number x, .number y => x.sameValue y
  | a, b => a == b

/-- The literal as emitted code. -/
def render : Literal → String
  | null => "null"
  | bool b => if b then "true" else "false"
  | int n => toString n.toInt
  | number x =>
    if x.isNaN then "NaN"
    else if x.isInfinite then (if x.isNegative then "-Infinity" else "Infinity")
    else x.text
  | string s => Text.quote s

end Literal

end Lowering
