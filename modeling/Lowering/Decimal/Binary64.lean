/-! Binary floating-point numbers of 64 bits.

A number is its bit pattern: a sign, eleven exponent bits and 52 fraction bits. A
finite one stands for `significand · 2^exponent` with natural `significand` below
`2^53` and `exponent` from `-1074` to `971`. Every operation here rounds an exact
ratio of natural numbers once, to the nearest number, a half going to the even
significand; what rounds past the largest number is infinite. -/
namespace Lowering

/-- A 64-bit floating-point number, by its bits. -/
structure Binary64 where
  bits : UInt64
deriving DecidableEq, Repr, Inhabited

namespace Binary64

/-! ### Parts -/

def isNegative (x : Binary64) : Bool := x.bits >>> 63 == 1

/-- The exponent bits. -/
def exponentField (x : Binary64) : Nat := ((x.bits >>> 52) &&& 0x7FF).toNat

/-- The fraction bits. -/
def fractionField (x : Binary64) : Nat := (x.bits &&& 0xFFFFFFFFFFFFF).toNat

def isNaN (x : Binary64) : Bool := x.exponentField == 0x7FF && x.fractionField != 0

def isInfinite (x : Binary64) : Bool := x.exponentField == 0x7FF && x.fractionField == 0

/-- Both zeros. -/
def isZero (x : Binary64) : Bool := x.exponentField == 0 && x.fractionField == 0

/-- The natural number that the power of two multiplies. -/
def significand (x : Binary64) : Nat :=
  if x.exponentField = 0 then x.fractionField else x.fractionField + (1 <<< 52)

/-- How far the exponent of a finite number lies above the least, `-1074`. -/
def scale (x : Binary64) : Nat := x.exponentField - 1

/-- The magnitude of a finite number, in units of `2^-1074`. -/
def units (x : Binary64) : Nat := x.significand <<< x.scale

/-- A unit is one over this. -/
def unitDenominator : Nat := 1 <<< 1074

/-! ### Rounding -/

def infinityField : Nat := 0x7FF <<< 52

def ofFields (negative : Bool) (magnitude : Nat) : Binary64 :=
  ⟨UInt64.ofNat ((if negative then 1 <<< 63 else 0) + magnitude)⟩

def infinity (negative : Bool) : Binary64 := ofFields negative infinityField

def nan : Binary64 := ⟨0x7FF8000000000000⟩

def zero (negative : Bool) : Binary64 := ofFields negative 0

/-- The quotient to the nearest natural number, a half going to the even one. -/
def roundDiv (num den : Nat) : Nat :=
  let q := num / den
  let r := num % den
  if 2 * r < den then q
  else if den < 2 * r then q + 1
  else q + q % 2

/-- The scale at which `num / den` units have a significand of 53 bits, zero for
smaller ones. -/
def scaleFor (num den : Nat) : Nat :=
  let s := Nat.log2 num - Nat.log2 den - 52
  if num < den <<< (s + 52) then s - 1 else s

/-- The number nearest to `num / den`. -/
def ofRatio (negative : Bool) (num den : Nat) : Binary64 :=
  let n := num * unitDenominator
  let s := scaleFor n den
  ofFields negative (min ((s <<< 52) + roundDiv n (den <<< s)) infinityField)

def ofNat (n : Nat) : Binary64 := ofRatio false n 1

/-- The number nearest to `digits · 10^exponent`. -/
def ofDecimal (negative : Bool) (digits : Nat) (exponent : Int) : Binary64 :=
  match exponent with
  | .ofNat e => ofRatio negative (digits * Nat.pow 10 e) 1
  | .negSucc e => ofRatio negative digits (Nat.pow 10 (e + 1))

/-! ### Arithmetic -/

def neg (x : Binary64) : Binary64 := ⟨x.bits ^^^ 0x8000000000000000⟩

/-- The nearest number to the product of two finite numbers that are not negative. -/
def mul (x y : Binary64) : Binary64 :=
  ofRatio false (x.units * y.units) (unitDenominator * unitDenominator)

/-- The nearest number to the quotient of two finite positive numbers. -/
def div (x y : Binary64) : Binary64 :=
  ofRatio false x.units y.units

/-- Equality of values: the two zeros are equal, and a NaN equals nothing. -/
def sameValue (x y : Binary64) : Bool :=
  !x.isNaN && !y.isNaN && (x == y || (x.isZero && y.isZero))

end Binary64

end Lowering
