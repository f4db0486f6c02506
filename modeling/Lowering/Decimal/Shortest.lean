import Lowering.Decimal.Binary64

/-! Shortest decimals.

A finite number other than zero is the nearest one to every decimal in an interval
around it; the ends belong to it when its significand is even. The shortest decimal
is the one with the fewest digits in that interval, and of those the nearest. It is
looked for among the two neighbours of the number on the grid of decimals with one
digit, two digits and so on up to seventeen, where one always lies in the interval. -/
namespace Lowering

/-- A decimal `digits · 10^exponent`. -/
structure Decimal where
  digits : Nat
  exponent : Int
deriving DecidableEq, Repr, Inhabited

namespace Decimal

/-- The decimals that read back as one number: from `low` to `high`, around `value`,
all over `denominator`. -/
structure Interval where
  low : Nat
  value : Nat
  high : Nat
  denominator : Nat
  closed : Bool

/-- The interval of a finite number other than zero, in quarters of a unit. -/
def intervalOf (x : Binary64) : Interval :=
  let step := 1 <<< x.scale
  let below := if x.significand = 1 <<< 52 ∧ x.scale ≠ 0 then step else 2 * step
  { low := 4 * x.units - below
    value := 4 * x.units
    high := 4 * x.units + 2 * step
    denominator := 4 * Binary64.unitDenominator
    closed := x.significand % 2 = 0 }

/-- The interval with its numbers multiplied by a power of ten. -/
def Interval.shift (i : Interval) (e : Int) : Interval :=
  match e with
  | .ofNat k =>
    let power := Nat.pow 10 k
    { i with low := i.low * power, value := i.value * power, high := i.high * power }
  | .negSucc k => { i with denominator := i.denominator * Nat.pow 10 (k + 1) }

/-- Whether the natural number `d` lies in the interval. -/
def Interval.holds (i : Interval) (d : Nat) : Bool :=
  let n := d * i.denominator
  if i.closed then i.low ≤ n && n ≤ i.high else i.low < n && n < i.high

/-- The nearer of the two neighbours of the value that lie in the interval; of two
equally near ones the larger. -/
def Interval.nearest? (i : Interval) : Option Nat :=
  let d := i.value / i.denominator
  let r := i.value % i.denominator
  match i.holds d, i.holds (d + 1) with
  | true, true => some (if 2 * r < i.denominator then d else d + 1)
  | true, false => some d
  | false, true => some (d + 1)
  | false, false => none

/-- The number of decimal digits before the point, negative for zeros after it: the
`k` with `10^(k-1) ≤ num/den < 10^k`. -/
def magnitude (num den : Nat) : Int :=
  if den ≤ num then (Nat.toDigits 10 (num / den)).length
  else
    let k := (Nat.toDigits 10 (den / num)).length
    if num * Nat.pow 10 (k - 1) = den then 2 - (k : Int) else 1 - (k : Int)

/-- Looks on the grids of `n`, `n + 1`, … digits, `left` of them. -/
def search (i : Interval) (k : Int) : (left n : Nat) → Decimal
  | 0, _ => ⟨0, 0⟩
  | left + 1, n =>
    match (i.shift (n - k)).nearest? with
    | some d => ⟨d, k - n⟩
    | none => search i k left (n + 1)

/-- Moves zeros at the end of the digits into the exponent. -/
def strip : (left : Nat) → Decimal → Decimal
  | 0, d => d
  | left + 1, d => if d.digits % 10 = 0 ∧ d.digits ≠ 0 then strip left ⟨d.digits / 10, d.exponent + 1⟩ else d

/-- The shortest decimal that reads back as `x`, which is finite. -/
def shortest (x : Binary64) : Decimal :=
  if x.isZero then ⟨0, 0⟩
  else
    let i := intervalOf x
    strip 18 (search i (magnitude i.value i.denominator) 17 1)

/-- The decimal without an exponent: zeros fill the places up to the point. -/
def positional (d : Decimal) : String :=
  let text := Nat.toDigits 10 d.digits
  match d.exponent with
  | .ofNat e => String.ofList (if d.digits = 0 then text else text ++ List.replicate e '0')
  | .negSucc e =>
    let places := e + 1
    let padded := List.replicate (places + 1 - text.length) '0' ++ text
    String.ofList (padded.take (padded.length - places) ++ '.' :: padded.drop (padded.length - places))

end Decimal

/-- The shortest decimal, without an exponent; a whole number has no point. -/
def Binary64.text (x : Binary64) : String :=
  if x.isNaN then "NaN"
  else
    let sign := if x.isNegative then "-" else ""
    if x.isInfinite then sign ++ "inf" else sign ++ (Decimal.shortest x).positional

end Lowering
