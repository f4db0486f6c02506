import Lowering.Decimal.Shortest

/-! JSON values.

A value keeps what its text says: numbers as they are written, and the entries of an
object in order, a key as often as it occurs. A string whose escapes name half of a
surrogate pair has no characters; it may stand where nothing reads it. -/
namespace Lowering

/-- A number as it is written. -/
structure Numeral where
  negative : Bool
  /-- The digits before the point. -/
  whole : List Char
  /-- The digits after the point, if there is one. -/
  fraction : Option (List Char) := none
  exponent : Option Int := none
deriving DecidableEq, Repr, Inhabited

inductive Json where
  | null
  | bool (value : Bool)
  | number (value : Numeral)
  /-- No characters stand for a string that is no text. -/
  | string (value : Option String)
  | array (items : List Json)
  | object (entries : List (Option String × Json))
deriving Repr, Inhabited

namespace Json

/-- The string of a text. -/
def text (s : String) : Json := .string (some s)

/-- The object of keys and values in order. -/
def fields (entries : List (String × Json)) : Json :=
  .object (entries.map fun (key, value) => (some key, value))

/-- The text of a value or null. -/
def textOrNull (s : Option String) : Json := (s.map text).getD .null

end Json

namespace Numeral

/-! ### Writing -/

def ofInt (n : Int) : Numeral where
  negative := n < 0
  whole := Nat.toDigits 10 n.natAbs

def ofNat (n : Nat) : Numeral := ofInt n

/-- A finite number with a point, as the shortest decimal. -/
def ofBinary64 (x : Binary64) : Numeral :=
  let digits := (Decimal.shortest x).positional.toList
  { negative := x.isNegative
    whole := digits.takeWhile (· ≠ '.')
    fraction := some (match (digits.dropWhile (· ≠ '.')).tail with
      | [] => ['0']
      | ds => ds) }

def text (n : Numeral) : String :=
  let sign := if n.negative then ['-'] else []
  let fraction := (n.fraction.map fun ds => '.' :: ds).getD []
  let exponent := (n.exponent.map fun e => 'e' :: (toString e).toList).getD []
  String.ofList (sign ++ n.whole ++ fraction ++ exponent)

/-! ### Reading -/

def digitValue (c : Char) : Nat := c.toNat - '0'.toNat

def ofDigits (ds : List Char) : Nat := ds.foldl (fun n d => 10 * n + digitValue d) 0

/-- Whether the number is written with digits alone, and so stands for an integer. -/
def isPlain (n : Numeral) : Bool := n.fraction.isNone && n.exponent.isNone

/-- The natural number, for digits alone without a sign. -/
def toNat? (n : Numeral) : Option Nat :=
  if n.isPlain && !n.negative then some (ofDigits n.whole) else none

/-- The integer, for digits alone; minus zero is not one. -/
def toInt? (n : Numeral) : Option Int :=
  if !n.isPlain then none
  else if !n.negative then some (ofDigits n.whole)
  else if ofDigits n.whole = 0 then none
  else some (-(ofDigits n.whole : Int))

/-- The largest significand that is kept. -/
def significandLimit : Nat := UInt64.size - 1

/-- Appends digits to a significand while it stays within the limit; the digits from
the first one that does not fit are left over. -/
def absorb (significand : Nat) : List Char → Nat × List Char
  | [] => (significand, [])
  | d :: rest =>
    let next := 10 * significand + digitValue d
    if next ≤ significandLimit then absorb next rest else (significand, d :: rest)

def powerOfTen (e : Nat) : Binary64 := Binary64.ofNat (Nat.pow 10 e)

/-- Divides by `10^308` again and again until nothing is left. -/
def shrink (x : Binary64) : (steps : Nat) → Binary64
  | 0 => x
  | steps + 1 => if x.isZero then x else shrink (x.div (powerOfTen 308)) steps

/-- Multiplies by a power of ten; no result past the largest number. -/
def scaled (x : Binary64) : Int → Option Binary64
  | .ofNat e =>
    if x.isZero then some x
    else if 308 < e then none
    else
      let y := x.mul (powerOfTen e)
      if y.isInfinite then none else some y
  | .negSucc e => some ((shrink x (e / 308)).div (powerOfTen (e % 308 + 1)))

/-- The floating-point number: the leading digits that 64 bits hold, scaled by powers
of ten with rounding at each step; a number past the largest one is refused. -/
def toBinary64? (n : Numeral) : Option Binary64 :=
  let (significand, overflow) := absorb 0 n.whole
  let digits := n.fraction.getD []
  let (significand, unread) := absorb significand digits
  let exponent : Int := overflow.length - (digits.length - unread.length : Nat) + n.exponent.getD 0
  (scaled (Binary64.ofNat significand) exponent).map fun x => if n.negative then x.neg else x

end Numeral

end Lowering
