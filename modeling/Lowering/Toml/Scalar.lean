import Lowering.Json.Token
import Lowering.Toml

/-! Numbers, words and moments of TOML.

All of them are written with letters, digits and `_ + - . :`. Underscores stand between
digits only. A number in decimal has no zero in front; with a point or an exponent it is
a floating-point number, and otherwise an integer, which 64 bits have to hold. -/
namespace Lowering.Toml

/-- Whether a character can be part of an unquoted value. -/
def isWordChar (c : Char) : Bool := c.isAlphanum || c ∈ ['_', '+', '-', '.', ':']

/-! ### Numbers -/

/-- The sign in front and the rest. -/
def signed : List Char → Bool × List Char
  | '-' :: rest => (true, rest)
  | '+' :: rest => (false, rest)
  | cs => (false, cs)

/-- Digits of some kind with single underscores between them, without these. -/
def digits? (isDigit : Char → Bool) : List Char → Option (List Char)
  | [] => none
  | [c] => if isDigit c then some [c] else none
  | c :: '_' :: rest => if isDigit c then (digits? isDigit rest).map (c :: ·) else none
  | c :: rest => if isDigit c then (digits? isDigit rest).map (c :: ·) else none

/-- Decimal digits without a zero in front, unless it is the only one. -/
def decimal? (cs : List Char) : Option (List Char) := do
  let ds ← digits? Char.isDigit cs
  if ds.head? = some '0' && ds.length ≠ 1 then none else some ds

def ofBase (base : Nat) (ds : List Char) : Nat :=
  ds.foldl (fun n d => n * base + (Json.hexValue? d).getD 0) 0

/-- An integer that 64 bits hold. -/
def bounded? (n : Int) : Option Int :=
  if Int64.minValue.toInt ≤ n ∧ n ≤ Int64.maxValue.toInt then some n else none

def isOctal (c : Char) : Bool := '0' ≤ c && c ≤ '7'

def isBinary (c : Char) : Bool := c = '0' || c = '1'

def integer? (cs : List Char) : Option Int :=
  match cs with
  | '0' :: 'x' :: rest => do bounded? (ofBase 16 (← digits? (fun c => (Json.hexValue? c).isSome) rest))
  | '0' :: 'o' :: rest => do bounded? (ofBase 8 (← digits? isOctal rest))
  | '0' :: 'b' :: rest => do bounded? (ofBase 2 (← digits? isBinary rest))
  | _ => do
    let (negative, rest) := signed cs
    let n : Int := ofBase 10 (← decimal? rest)
    bounded? (if negative then -n else n)

/-- The exponent, if one is left. -/
def exponent? : List Char → Option Int
  | [] => some 0
  | c :: rest => do
    if c ≠ 'e' && c ≠ 'E' then none
    let (negative, rest) := signed rest
    let n : Int := ofBase 10 (← digits? Char.isDigit rest)
    return if negative then -n else n

/-- The number of digits scaled by a power of ten, which is out of range when the
digits are not near enough to the point. -/
def scale (negative : Bool) (ds : List Char) (exponent : Int) : Binary64 :=
  let n := ofBase 10 ds
  let top := exponent + ds.length
  if n = 0 || top < -400 then .ofDecimal negative 0 0
  else if 400 < top then .infinity negative
  else .ofDecimal negative n exponent

/-- A finite floating-point number; only a number that is too large is refused. -/
def float? (cs : List Char) : Option Binary64 := do
  let (negative, rest) := signed cs
  let isMark (c : Char) : Bool := c = '.' || c = 'e' || c = 'E'
  let whole ← decimal? (rest.takeWhile (!isMark ·))
  let x ← match rest.dropWhile (!isMark ·) with
    | [] => none
    | '.' :: rest => do
      let isExponent (c : Char) : Bool := c = 'e' || c = 'E'
      let fraction ← digits? Char.isDigit (rest.takeWhile (!isExponent ·))
      let e ← exponent? (rest.dropWhile (!isExponent ·))
      pure (scale negative (whole ++ fraction) (e - fraction.length))
    | rest => do pure (scale negative whole (← exponent? rest))
  if x.isInfinite && !x.isNegative then none else some x

/-- Infinity or a NaN. -/
def special? (cs : List Char) : Option Binary64 :=
  let (negative, rest) := signed cs
  if rest = ['i', 'n', 'f'] then some (.infinity negative)
  else if rest = ['n', 'a', 'n'] then some .nan
  else none

/-! ### Moments -/

/-- Two digits as a number from `first` to `last`. -/
def pair? (first last : Nat) (a b : Char) : Option Nat := do
  if !(a.isDigit && b.isDigit) then none
  let n := ofBase 10 [a, b]
  if first ≤ n && n ≤ last then some n else none

def isLeapYear (year : Nat) : Bool := year % 4 = 0 && (year % 100 ≠ 0 || year % 400 = 0)

def daysIn (year month : Nat) : Nat :=
  if month = 2 then (if isLeapYear year then 29 else 28)
  else if month ∈ [4, 6, 9, 11] then 30
  else 31

/-- Whether characters are a date. -/
def isDate : List Char → Bool
  | [a, b, c, d, '-', e, f, '-', g, h] =>
    [a, b, c, d].all Char.isDigit &&
      match pair? 1 12 e f with
      | some month => (pair? 1 (daysIn (ofBase 10 [a, b, c, d]) month) g h).isSome
      | none => false
  | _ => false

/-- The characters after a time without an offset. -/
def afterTime? : List Char → Option (List Char)
  | a :: b :: ':' :: c :: d :: ':' :: e :: f :: rest => do
    let _ ← pair? 0 23 a b
    let _ ← pair? 0 59 c d
    let _ ← pair? 0 60 e f
    match rest with
    | '.' :: rest =>
      if (rest.takeWhile Char.isDigit).isEmpty then none else some (rest.dropWhile Char.isDigit)
    | _ => some rest
  | _ => none

def isOffset : List Char → Bool
  | [] => true
  | ['Z'] => true
  | ['z'] => true
  | [s, a, b, ':', c, d] =>
    (s = '+' || s = '-') && (pair? 0 23 a b).isSome && (pair? 0 59 c d).isSome
  | _ => false

def isTime (cs : List Char) : Bool := afterTime? cs = some []

/-- Whether characters are a time that may have an offset. -/
def isOffsetTime (cs : List Char) : Bool := (afterTime? cs).any isOffset

/-- Whether characters are a date and a time with a letter between them. -/
def isDateTime (cs : List Char) : Bool :=
  isDate (cs.take 10) &&
    match cs.drop 10 with
    | c :: rest => (c = 'T' || c = 't') && isOffsetTime rest
    | [] => false

def isMoment (cs : List Char) : Bool := isDate cs || isTime cs || isDateTime cs

/-- The value of a word. -/
def word? (cs : List Char) : Option Toml :=
  if cs = ['t', 'r', 'u', 'e'] then some (.boolean true)
  else if cs = ['f', 'a', 'l', 's', 'e'] then some (.boolean false)
  else if isMoment cs then some .moment
  else match integer? cs, float? cs, special? cs with
    | some n, _, _ => some (.integer n)
    | none, some x, _ => some (.number x)
    | none, none, some x => some (.number x)
    | none, none, none => none

end Lowering.Toml
