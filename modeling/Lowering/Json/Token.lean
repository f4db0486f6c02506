import Lowering.Json

/-! The tokens of JSON text.

Between tokens stand spaces, tabs and line breaks. A string may hold any character
from the space on but the quote and the backslash, and escapes; `\u` escapes name
UTF-16 units, two of which make a character when they are a surrogate pair. -/
namespace Lowering.Json

inductive Token where
  /-- A bracket, a brace, a comma or a colon. -/
  | punctuation (c : Char)
  /-- A value without parts. -/
  | scalar (value : Json)
deriving Repr

/-! ### Strings -/

/-- What a string is written with. -/
inductive StringPart where
  | char (c : Char)
  /-- A UTF-16 unit. -/
  | unit (u : Nat)

def hexValue? (c : Char) : Option Nat :=
  if c.isDigit then some (c.toNat - '0'.toNat)
  else if 'a' ≤ c ∧ c ≤ 'f' then some (c.toNat - 'a'.toNat + 10)
  else if 'A' ≤ c ∧ c ≤ 'F' then some (c.toNat - 'A'.toNat + 10)
  else none

def hexUnit? (a b c d : Char) : Option Nat := do
  return (((← hexValue? a) * 16 + (← hexValue? b)) * 16 + (← hexValue? c)) * 16 + (← hexValue? d)

/-- The character that a letter after a backslash stands for. -/
def simpleEscape? : Char → Option Char
  | '"' => some '"'
  | '\\' => some '\\'
  | '/' => some '/'
  | 'b' => some '\x08'
  | 'f' => some '\x0c'
  | 'n' => some '\n'
  | 'r' => some '\r'
  | 't' => some '\t'
  | _ => none

/-- Reads a string up to its closing quote, and gives the characters after it. -/
def stringBody : List Char → Option (List StringPart × List Char)
  | [] => none
  | '"' :: rest => some ([], rest)
  | '\\' :: 'u' :: a :: b :: c :: d :: rest =>
    match hexUnit? a b c d, stringBody rest with
    | some u, some (parts, after) => some (.unit u :: parts, after)
    | _, _ => none
  | '\\' :: e :: rest =>
    match simpleEscape? e, stringBody rest with
    | some c, some (parts, after) => some (.char c :: parts, after)
    | _, _ => none
  | c :: rest =>
    if c.toNat < 0x20 then none
    else match stringBody rest with
      | some (parts, after) => some (.char c :: parts, after)
      | none => none

theorem stringBody_length {cs after : List Char} {parts : List StringPart}
    (h : stringBody cs = some (parts, after)) : after.length < cs.length := by
  fun_induction stringBody cs generalizing parts with
  | case1 => cases h
  | case2 => grind
  | case3 a b c d rest u ps rest' hrest hu ih =>
    simp only [Option.some.injEq, Prod.mk.injEq] at h
    have := ih (h.2 ▸ hrest)
    simp only [List.length_cons]
    omega
  | case4 => cases h
  | case5 => grind
  | case6 => cases h
  | case7 => cases h
  | case8 => grind
  | case9 => cases h

def isHighSurrogate (u : Nat) : Bool := 0xD800 ≤ u && u < 0xDC00

def isLowSurrogate (u : Nat) : Bool := 0xDC00 ≤ u && u < 0xE000

/-- The characters that the parts make; none when half of a pair stands alone. -/
def joinParts : List StringPart → Option (List Char)
  | [] => some []
  | .char c :: rest => (joinParts rest).map (c :: ·)
  | .unit u :: .unit v :: rest =>
    if isHighSurrogate u && isLowSurrogate v then
      (joinParts rest).map (Char.ofNat (0x10000 + (u - 0xD800) * 0x400 + (v - 0xDC00)) :: ·)
    else if isHighSurrogate u || isLowSurrogate u then none
    else (joinParts (.unit v :: rest)).map (Char.ofNat u :: ·)
  | .unit u :: rest =>
    if isHighSurrogate u || isLowSurrogate u then none
    else (joinParts rest).map (Char.ofNat u :: ·)

/-! ### Numbers -/

/-- The digits after the point, if there is a point. -/
def fraction? : List Char → Option (Option (List Char) × List Char)
  | '.' :: rest =>
    let digits := rest.takeWhile Char.isDigit
    if digits.isEmpty then none else some (some digits, rest.dropWhile Char.isDigit)
  | cs => some (none, cs)

/-- The sign of an exponent and what follows it. -/
def exponentSign : List Char → Bool × List Char
  | '-' :: rest => (true, rest)
  | '+' :: rest => (false, rest)
  | cs => (false, cs)

/-- The exponent, if there is one. -/
def exponent? : List Char → Option (Option Int × List Char)
  | c :: rest =>
    if c = 'e' ∨ c = 'E' then
      let (negative, rest) := exponentSign rest
      let digits := rest.takeWhile Char.isDigit
      if digits.isEmpty then none
      else
        let e : Int := Numeral.ofDigits digits
        some (some (if negative then -e else e), rest.dropWhile Char.isDigit)
    else some (none, c :: rest)
  | [] => some (none, [])

/-- The digits before the point: a zero alone, or digits that start with another one. -/
def whole? : List Char → Option (List Char × List Char)
  | '0' :: rest => some (['0'], rest)
  | c :: rest =>
    if c.isDigit then some (c :: rest.takeWhile Char.isDigit, rest.dropWhile Char.isDigit)
    else none
  | [] => none

/-- Reads a number without its sign, and gives the characters after it. -/
def numeral? (negative : Bool) (cs : List Char) : Option (Numeral × List Char) := do
  let (whole, cs) ← whole? cs
  let (fraction, cs) ← fraction? cs
  let (exponent, cs) ← exponent? cs
  return ({ negative, whole, fraction, exponent }, cs)

theorem length_dropWhile_le (p : Char → Bool) (cs : List Char) :
    (cs.dropWhile p).length ≤ cs.length :=
  (List.dropWhile_sublist p).length_le

theorem fraction?_length {cs after : List Char} {f : Option (List Char)}
    (h : fraction? cs = some (f, after)) : after.length ≤ cs.length := by
  unfold fraction? at h
  split at h
  next rest =>
    have := length_dropWhile_le Char.isDigit rest
    grind
  next => grind

theorem exponentSign_length (cs : List Char) : (exponentSign cs).2.length ≤ cs.length := by
  unfold exponentSign
  split <;> simp

theorem exponent?_length {cs after : List Char} {e : Option Int}
    (h : exponent? cs = some (e, after)) : after.length ≤ cs.length := by
  unfold exponent? at h
  split at h
  next c rest =>
    have hs := exponentSign_length rest
    have hd := length_dropWhile_le Char.isDigit (exponentSign rest).2
    grind
  next => grind

theorem whole?_length {cs after ds : List Char} (h : whole? cs = some (ds, after)) :
    after.length < cs.length := by
  unfold whole? at h
  split at h
  next => grind
  next c rest _ =>
    have := length_dropWhile_le Char.isDigit rest
    grind
  next => grind

theorem numeral?_length {negative : Bool} {cs after : List Char} {n : Numeral}
    (h : numeral? negative cs = some (n, after)) : after.length < cs.length := by
  simp only [numeral?, Option.bind_eq_bind, Option.pure_def, Option.bind_eq_some_iff,
    Option.some.injEq, Prod.mk.injEq, Prod.exists] at h
  obtain ⟨_, a, hw, _, b, hf, _, c, he, _, rfl⟩ := h
  have := whole?_length hw
  have := fraction?_length hf
  have := exponent?_length he
  omega

/-! ### Tokens -/

def isBlank (c : Char) : Bool := c = ' ' || c = '\t' || c = '\n' || c = '\r'

def isPunctuation (c : Char) : Bool := c ∈ ['[', ']', '\x7b', '\x7d', ',', ':']

/-- The value that a word stands for. -/
def word? (cs : List Char) : Option Json :=
  if cs = "null".toList then some .null
  else if cs = "true".toList then some (.bool true)
  else if cs = "false".toList then some (.bool false)
  else none

/-- Cuts text into tokens; text that has none at some place is refused. -/
def tokens? : List Char → Option (List Token)
  | [] => some []
  | c :: rest =>
    if isBlank c then tokens? rest
    else if isPunctuation c then (tokens? rest).map (.punctuation c :: ·)
    else if c = '"' then
      match _ : stringBody rest with
      | some (parts, after) =>
        (tokens? after).map (.scalar (.string ((joinParts parts).map String.ofList)) :: ·)
      | none => none
    else if c.isAlpha then
      match word? (c :: rest.takeWhile Char.isAlpha) with
      | some v => (tokens? (rest.dropWhile Char.isAlpha)).map (.scalar v :: ·)
      | none => none
    else if c = '-' then
      match _ : numeral? true rest with
      | some (n, after) => (tokens? after).map (.scalar (.number n) :: ·)
      | none => none
    else
      match _ : numeral? false (c :: rest) with
      | some (n, after) => (tokens? after).map (.scalar (.number n) :: ·)
      | none => none
termination_by cs => cs.length
decreasing_by
  · exact Nat.lt_succ_self _
  · exact Nat.lt_succ_self _
  · exact Nat.lt_succ_of_lt (stringBody_length ‹_›)
  · exact Nat.lt_succ_of_le (length_dropWhile_le _ _)
  · exact Nat.lt_succ_of_lt (numeral?_length ‹_›)
  · exact numeral?_length ‹_›

end Lowering.Json
