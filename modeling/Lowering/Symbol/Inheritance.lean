/-! Chains of base classes.

The bases are given as one link per position. A chain follows the links from some
position; it either ends or runs into a cycle, which it does within as many steps as
there are positions. -/
namespace Lowering

/-- The base of each position, where there is one. -/
abbrev BaseLinks := List (Option Nat)

namespace BaseLinks

def base? (links : BaseLinks) (i : Nat) : Option Nat := links[i]?.join

/-- The bases above a position, nearest first, within a number of steps. -/
def above (links : BaseLinks) : (steps : Nat) → Nat → List Nat
  | 0, _ => []
  | steps + 1, i =>
    match links.base? i with
    | none => []
    | some b => b :: links.above steps b

/-- Every base above a position, nearest first. -/
def chain (links : BaseLinks) (i : Nat) : List Nat := links.above links.length i

/-- The cycle that a path runs into within a number of steps, in the order of the links;
`path` ends with the present position. -/
def cycleFrom? (links : BaseLinks) : (steps : Nat) → (path : List Nat) → Nat → Option (List Nat)
  | 0, _, _ => none
  | steps + 1, path, i =>
    match links.base? i with
    | none => none
    | some b =>
      if b ∈ path then some (path.dropWhile (· ≠ b))
      else links.cycleFrom? steps (path ++ [b]) b

/-- The cycle that the chain of a position runs into. -/
def cycle? (links : BaseLinks) (i : Nat) : Option (List Nat) :=
  links.cycleFrom? links.length [i] i

end BaseLinks

/-- The members of a cycle, starting at a given one. -/
def rotateTo (first : Nat) (cycle : List Nat) : List Nat :=
  cycle.dropWhile (· ≠ first) ++ cycle.takeWhile (· ≠ first)

end Lowering
