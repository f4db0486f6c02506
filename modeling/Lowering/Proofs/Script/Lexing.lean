import Lowering.Text.Quoted

/-! Lexemes of scripts.

A script is read from left to right, and from each place as much as makes one lexeme: a name, a
numeral, a string literal, a punctuation mark or a bracket, with blanks between them where there
are any. A numeral may not run into a name. Which characters beyond ASCII names are made of is left
to an alphabet. Left out is what emitted expressions are not written with: comments, regular
expressions, templates, escapes by code points, and numerals that are not decimal.

There is one way at most to read a text (`Lexes.unique`): by its first lexeme (`lexes_next`), which
is a matter of the characters up to where it ends. -/
namespace Lowering.Script

/-! ### Lexemes -/

/-- A lexeme other than a bracket. -/
inductive Atom where
  /-- A name or a reserved word. -/
  | word (text : String)
  /-- A numeral, as it is written. -/
  | number (text : String)
  /-- A string literal, by its value. -/
  | string (value : String)
  | mark (text : String)
deriving DecidableEq, Repr, Inhabited

inductive Bracket where
  | round
  | square
  | curly
deriving DecidableEq, Repr

inductive Lexeme where
  | atom (a : Atom)
  | opening (b : Bracket)
  | closing (b : Bracket)
deriving DecidableEq, Repr

def Lexeme.isAtom : Lexeme → Bool
  | atom _ => true
  | opening _ | closing _ => false

/-- The number of lexemes that are not brackets. -/
def atoms (ls : List Lexeme) : Nat := ls.countP (·.isAtom)

/-- Blanks and line breaks. -/
def blanks : List Char :=
  ['\t', '\x0b', '\x0c', ' ', '\u00a0', '\ufeff', '\n', '\r', '\u2028', '\u2029', '\u1680', '\u2000',
    '\u2001', '\u2002', '\u2003', '\u2004', '\u2005', '\u2006', '\u2007', '\u2008', '\u2009', '\u200a',
    '\u202f', '\u205f', '\u3000']

/-- The characters of names: what they may start with and what they may go on with. -/
structure Alphabet where
  isStart : Char → Bool
  isPart : Char → Bool
  start_ascii : ∀ c : Char, c.toNat < 128 → isStart c = (c.isAlpha || c == '_' || c == '$')
  part_ascii : ∀ c : Char, c.toNat < 128 → isPart c = (c.isAlphanum || c == '_' || c == '$')
  part_of_start : ∀ c : Char, isStart c = true → isPart c = true
  not_blank : ∀ c ∈ blanks, isPart c = false

/-- The alphabet with no characters in names but those that every alphabet has. -/
def Alphabet.ascii : Alphabet where
  isStart c := c.isAlpha || c == '_' || c == '$'
  isPart c := c.isAlphanum || c == '_' || c == '$'
  start_ascii _ _ := rfl
  part_ascii _ _ := rfl
  part_of_start c h := by
    rw [Char.isAlphanum]
    simp only [Bool.or_eq_true] at h ⊢
    rcases h with (h | h) | h
    · exact .inl (.inl (.inl h))
    · exact .inl (.inr h)
    · exact .inr h
  not_blank c hc := by
    have hnone : blanks.all (fun c => !(c.isAlphanum || c == '_' || c == '$')) = true := by decide
    simpa using List.all_eq_true.mp hnone c hc

/-- The punctuation marks, each before those that it starts with. -/
def marks : List String :=
  [">>>=", "...", "===", "!==", "**=", "<<=", ">>=", ">>>", "&&=", "||=", "??=", "=>", "==", "!=", "<=",
    ">=", "&&", "||", "??", "?.", "++", "--", "+=", "-=", "*=", "/=", "%=", "&=", "|=", "^=", "<<", ">>",
    "**", ".", ";", ",", "<", ">", "+", "-", "*", "/", "%", "&", "|", "^", "!", "~", "?", ":", "="]

/-! ### Runs of characters -/

theorem head?_append_of_ne_nil {α : Type} {as : List α} (h : as ≠ []) (bs : List α) :
    (as ++ bs).head? = as.head? := by
  obtain ⟨a, as, rfl⟩ := List.exists_cons_of_ne_nil h
  rfl

theorem takeWhile_of_ends {p : Char → Bool} {rest : List Char} (h : ∀ c ∈ rest.head?, p c = false) :
    rest.takeWhile p = [] ∧ rest.dropWhile p = rest := by
  cases rest with
  | nil => exact ⟨rfl, rfl⟩
  | cons c rest =>
    have hc : ¬p c = true := by simp [h c rfl]
    exact ⟨List.takeWhile_cons_of_neg hc, List.dropWhile_cons_of_neg hc⟩

/-- What runs up to where `p` ends is taken off. -/
theorem takeWhile_append_ends {p : Char → Bool} {run rest : List Char} (hrun : ∀ c ∈ run, p c = true)
    (h : ∀ c ∈ rest.head?, p c = false) :
    (run ++ rest).takeWhile p = run ∧ (run ++ rest).dropWhile p = rest := by
  obtain ⟨htake, hdrop⟩ := takeWhile_of_ends h
  rw [List.takeWhile_append_of_pos hrun, List.dropWhile_append_of_pos hrun, htake, hdrop]
  exact ⟨List.append_nil run, rfl⟩

/-! ### Reading one lexeme -/

/-- The longest mark that the text starts with. -/
def mark? (cs : List Char) : Option (String × List Char) :=
  marks.findSome? fun m => (m.toList.isPrefixOf? cs).map fun rest => (m, rest)

def bracket? : Char → Option Lexeme
  | '(' => some (.opening .round)
  | ')' => some (.closing .round)
  | '[' => some (.opening .square)
  | ']' => some (.closing .square)
  | '\x7b' => some (.opening .curly)
  | '\x7d' => some (.closing .curly)
  | _ => none

/-- What a character stands for after a backslash. -/
def escaped? : Char → Option Char
  | '\'' => some '\''
  | '\x22' => some '\x22'
  | '\\' => some '\\'
  | 'b' => some '\x08'
  | 'f' => some '\x0c'
  | 'n' => some '\n'
  | 'r' => some '\r'
  | 't' => some '\t'
  | 'v' => some '\x0b'
  | _ => none

/-- The value of a literal, and what comes after its closing quote. -/
def string? (quote : Char) : List Char → Option (List Char × List Char)
  | [] => none
  | '\\' :: c :: rest => do
    let value ← escaped? c
    let (values, after) ← string? quote rest
    return (value :: values, after)
  | c :: rest =>
    if c = quote then some ([], rest)
    else if c = '\\' || c = '\n' || c = '\r' then none
    else (string? quote rest).map fun (values, after) => (c :: values, after)

/-- A point with the digits after it. -/
def fraction : List Char → List Char × List Char
  | '.' :: rest => ('.' :: rest.takeWhile Char.isDigit, rest.dropWhile Char.isDigit)
  | cs => ([], cs)

def sign : List Char → List Char × List Char
  | '+' :: rest => (['+'], rest)
  | '-' :: rest => (['-'], rest)
  | cs => ([], cs)

/-- An exponent, if there are digits in it. -/
def exponent : List Char → List Char × List Char
  | [] => ([], [])
  | c :: rest =>
    let digits := (sign rest).2.takeWhile Char.isDigit
    if (c = 'e' || c = 'E') && !digits.isEmpty then
      (c :: (sign rest).1 ++ digits, (sign rest).2.dropWhile Char.isDigit)
    else ([], c :: rest)

namespace Alphabet

variable (A : Alphabet)

/-- A decimal numeral. It needs a digit besides its point, it has no zeros in front, and nothing
comes right after it that could go on a name. -/
def numeral? (cs : List Char) : Option (List Char × List Char) :=
  let whole := cs.takeWhile Char.isDigit
  let (fraction, afterFraction) := fraction (cs.dropWhile Char.isDigit)
  let (exponent, rest) := exponent afterFraction
  if whole.isEmpty && fraction.length < 2 || whole.head? = some '0' && 1 < whole.length ||
      rest.head?.any A.isPart then none
  else some (whole ++ fraction ++ exponent, rest)

/-- The first lexeme of a text that does not start with a blank, and what comes after it. -/
def next : List Char → Option (Lexeme × List Char)
  | [] => none
  | c :: rest =>
    if c ∈ blanks then none
    else if A.isStart c then
      some (.atom (.word (String.ofList (c :: rest.takeWhile A.isPart))), rest.dropWhile A.isPart)
    else if c.isDigit || c = '.' && rest.head?.any Char.isDigit then
      (A.numeral? (c :: rest)).map fun (text, after) => (.atom (.number (String.ofList text)), after)
    else if c = '\'' || c = '\x22' then
      (string? c rest).map fun (value, after) => (.atom (.string (String.ofList value)), after)
    else match bracket? c with
      | some l => some (l, rest)
      | none =>
        if c = '/' && (rest.head? = some '/' || rest.head? = some '*') then none
        else (mark? (c :: rest)).map fun (text, after) => (.atom (.mark text), after)

/-- The lexemes of a text. -/
inductive Lexes : List Char → List Lexeme → Prop
  | done {cs : List Char} (h : cs.dropWhile (· ∈ blanks) = []) : Lexes cs []
  | more {cs rest : List Char} {l : Lexeme} {ls : List Lexeme}
    (h : A.next (cs.dropWhile (· ∈ blanks)) = some (l, rest)) (hrest : Lexes rest ls) :
    Lexes cs (l :: ls)

/-! ### Reading a text -/

variable {A} {cs rest : List Char} {c : Char} {l : Lexeme} {ls ls' : List Lexeme}

/-- There is one way to read a text. -/
theorem Lexes.unique (h : A.Lexes cs ls) (h' : A.Lexes cs ls') : ls = ls' := by
  induction h generalizing ls' with
  | done hnone =>
    cases h' with
    | done _ => rfl
    | more hnext _ =>
      rw [hnone] at hnext
      cases hnext
  | more hnext _ ih =>
    cases h' with
    | done hnone =>
      rw [hnone] at hnext
      cases hnext
    | more hnext' hrest' =>
      obtain ⟨rfl, rfl⟩ := Prod.mk.inj (Option.some.inj (hnext.symm.trans hnext'))
      rw [ih hrest']

theorem lexes_nil : A.Lexes [] ls ↔ ls = [] := by
  constructor
  · intro h
    exact h.unique (.done rfl)
  · rintro rfl
    exact .done rfl

/-- A blank is skipped. -/
theorem lexes_blank (h : c ∈ blanks) : A.Lexes (c :: rest) ls ↔ A.Lexes rest ls := by
  have hdrop : (c :: rest).dropWhile (· ∈ blanks) = rest.dropWhile (· ∈ blanks) :=
    List.dropWhile_cons_of_pos (decide_eq_true h)
  constructor
  · intro hlexes
    cases hlexes with
    | done hnone => exact .done (hdrop ▸ hnone)
    | more hnext hrest => exact .more (hdrop ▸ hnext) hrest
  · intro hlexes
    cases hlexes with
    | done hnone => exact .done (hdrop.trans hnone)
    | more hnext hrest => exact .more (hdrop.symm ▸ hnext) hrest

/-- The first lexeme is read, then the rest. -/
theorem lexes_next (h : A.next cs = some (l, rest)) :
    A.Lexes cs ls ↔ ∃ after, ls = l :: after ∧ A.Lexes rest after := by
  have hdrop : cs.dropWhile (· ∈ blanks) = cs := by
    cases cs with
    | nil => rfl
    | cons c cs =>
      refine List.dropWhile_cons_of_neg fun hblank => ?_
      rw [next, if_pos (of_decide_eq_true hblank)] at h
      cases h
  constructor
  · intro hlexes
    cases hlexes with
    | done hnone =>
      rw [← hdrop, hnone] at h
      cases h
    | more hnext hrest =>
      rw [hdrop, h] at hnext
      obtain ⟨rfl, rfl⟩ := Prod.mk.inj (Option.some.inj hnext)
      exact ⟨_, rfl, hrest⟩
  · rintro ⟨after, rfl, hrest⟩
    exact .more (hdrop.symm ▸ h) hrest

theorem not_lexes (h : A.next (c :: cs) = none) (hblank : c ∉ blanks) : ¬A.Lexes (c :: cs) ls := by
  have hdrop : (c :: cs).dropWhile (· ∈ blanks) = c :: cs :=
    List.dropWhile_cons_of_neg (by simpa using hblank)
  intro hlexes
  cases hlexes with
  | done hnone =>
    rw [hdrop] at hnone
    cases hnone
  | more hnext _ =>
    rw [hdrop, h] at hnext
    cases hnext

/-! ### Names -/

variable (A) in
/-- The characters are those of a name. -/
def IsName : List Char → Prop
  | [] => False
  | c :: run => A.isStart c = true ∧ ∀ d ∈ run, A.isPart d = true

instance : (cs : List Char) → Decidable (A.IsName cs)
  | [] => .isFalse id
  | c :: run => decidable_of_iff ((A.isStart c && run.all A.isPart) = true) (by
      rw [Bool.and_eq_true, List.all_eq_true]
      rfl)

theorem isPart_of_isName {name : List Char} (h : A.IsName name) : ∀ c ∈ name, A.isPart c = true := by
  cases name with
  | nil => exact h.elim
  | cons c run => exact List.forall_mem_cons.mpr ⟨A.part_of_start c h.1, h.2⟩

/-- A name goes on with whatever names go on with. -/
theorem isName_append {name run : List Char} (h : A.IsName name) (hrun : ∀ c ∈ run, A.isPart c = true) :
    A.IsName (name ++ run) := by
  cases name with
  | nil => exact h.elim
  | cons c name => exact ⟨h.1, List.forall_mem_append.mpr ⟨h.2, hrun⟩⟩

def isAsciiName : List Char → Bool
  | [] => false
  | c :: run =>
    c.toNat < 128 && (c.isAlpha || c == '_' || c == '$') &&
      run.all fun c => c.toNat < 128 && (c.isAlphanum || c == '_' || c == '$')

/-- What is a name in every alphabet. -/
theorem isName_of_ascii {cs : List Char} (h : isAsciiName cs = true) : A.IsName cs := by
  cases cs with
  | nil => cases h
  | cons c run =>
    simp only [isAsciiName, Bool.and_eq_true, decide_eq_true_eq, List.all_eq_true] at h
    obtain ⟨⟨hascii, hstart⟩, hrun⟩ := h
    refine ⟨(A.start_ascii c hascii).trans hstart, fun d hd => ?_⟩
    obtain ⟨hascii, hpart⟩ := hrun d hd
    exact (A.part_ascii d hascii).trans hpart

end Alphabet

end Lowering.Script
