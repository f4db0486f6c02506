/-! Qualified names.

Classes, interfaces and modules are known by a dotted name: a package path, and
after the last dot the simple name. Any text is a name; the empty package is the
default package. Names are ordered by code point, which for UTF-8 text is the
order of the bytes. -/
namespace Lowering

/-- A package-qualified name such as `pkg.sub.Part`. -/
structure Name where
  text : String
deriving DecidableEq, Repr, Inhabited

namespace Name

instance : LT Name := ⟨fun a b => a.text < b.text⟩

instance (a b : Name) : Decidable (a < b) :=
  inferInstanceAs (Decidable (a.text < b.text))

/-- The part after the last dot, the whole name when there is none. -/
def simple (n : Name) : String :=
  String.ofList (n.text.toList.reverse.takeWhile (· ≠ '.')).reverse

/-- The part before the last dot, empty when there is none. -/
def package (n : Name) : String :=
  String.ofList (n.text.toList.reverse.dropWhile (· ≠ '.')).tail.reverse

/-- A name without a dot lives in the default package. -/
def isDefaultPackage (n : Name) : Bool :=
  !n.text.toList.contains '.'

/-- The name of `simple` in `package`. -/
def ofParts (package simple : String) : Name :=
  if package.isEmpty then ⟨simple⟩ else ⟨package ++ "." ++ simple⟩

/-- Cuts a text at every dot; a text without one is its own only segment. -/
def splitDots : List Char → List (List Char)
  | [] => [[]]
  | c :: rest =>
    if c = '.' then [] :: splitDots rest
    else match splitDots rest with
      | [] => [[c]]
      | segment :: segments => (c :: segment) :: segments

/-- The parts between the dots, in order. -/
def segments (n : Name) : List String :=
  (splitDots n.text.toList).map String.ofList

/-! ### The order of names -/

theorem lt_irrefl (a : Name) : ¬a < a := String.lt_irrefl a.text

theorem lt_trans {a b c : Name} (hab : a < b) (hbc : b < c) : a < c := String.lt_trans hab hbc

/-- Two names are equal or one comes before the other. -/
theorem lt_or_eq_or_gt (a b : Name) : a < b ∨ a = b ∨ b < a := by
  by_cases hab : a < b
  · exact .inl hab
  · by_cases hba : b < a
    · exact .inr (.inr hba)
    · refine .inr (.inl ?_)
      have h := String.le_antisymm (String.not_lt.mp hba) (String.not_lt.mp hab)
      cases a
      cases b
      exact congrArg Name.mk h

end Name

end Lowering
