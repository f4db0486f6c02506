import Lowering.Proofs.Script.Grammar
import Mathlib.Data.List.Basic

/-! How a lexeme is read in front of the rest of a text.

A name or a numeral is read up to where it ends, a string up to its closing quote, and a punctuation
mark if what comes next does not make a longer one. Only behind a whole numeral a point is no mark:
it goes on the numeral, and a name behind it then goes on the numeral too or may not stand there
(`numeral?_name`). -/
namespace Lowering.Script

namespace Alphabet

variable {A : Alphabet} {rest : List Char} {c d : Char}

/-! ### Names -/

variable (A) in
/-- What comes after a name or a numeral does not go on it. -/
def Ends (rest : List Char) : Prop := ∀ c ∈ rest.head?, A.isPart c = false

theorem not_blank_of_part (h : A.isPart c = true) : c ∉ blanks := by
  intro hblank
  rw [A.not_blank c hblank] at h
  cases h

theorem next_word {name : List Char} (hname : A.IsName name) (hrest : A.Ends rest) :
    A.next (name ++ rest) = some (.atom (.word (String.ofList name)), rest) := by
  cases name with
  | nil => exact hname.elim
  | cons c run =>
    obtain ⟨hstart, hrun⟩ := hname
    obtain ⟨htake, hdrop⟩ := takeWhile_append_ends hrun hrest
    rw [List.cons_append, next, if_neg (not_blank_of_part (A.part_of_start c hstart)), if_pos hstart,
      htake, hdrop]

/-! ### Numerals -/

theorem toNat_of_digit (h : c.isDigit = true) : 48 ≤ c.toNat ∧ c.toNat ≤ 57 := by
  simp only [Char.isDigit, Bool.and_eq_true, decide_eq_true_eq, UInt32.le_iff_toNat_le, ge_iff_le] at h
  exact h

theorem part_of_digit (h : c.isDigit = true) : A.isPart c = true := by
  obtain ⟨-, hle⟩ := toNat_of_digit h
  rw [A.part_ascii c (by omega), Char.isAlphanum, h]
  simp

theorem not_start_of_digit (h : c.isDigit = true) : A.isStart c = false := by
  obtain ⟨hge, hle⟩ := toNat_of_digit h
  have hletter : ¬c.isAlpha = true := by
    have halpha : c.isAlpha =
        (decide (c.val ≥ 'A'.val ∧ c.val ≤ 'Z'.val) || c.val ≥ 'a'.val && c.val ≤ 'z'.val) := rfl
    simp only [halpha, Bool.or_eq_true, Bool.and_eq_true, decide_eq_true_eq, UInt32.le_iff_toNat_le,
      ge_iff_le]
    show ¬((65 ≤ c.toNat ∧ c.toNat ≤ 90) ∨ (97 ≤ c.toNat ∧ c.toNat ≤ 122))
    omega
  have hline : c ≠ '_' := by
    rintro rfl
    simp at hle
  have hdollar : c ≠ '$' := by
    rintro rfl
    simp at hge
  rw [A.start_ascii c (by omega)]
  simp [hletter, hline, hdollar]

/-- What a digit starts is a numeral. -/
theorem next_of_digit (h : c.isDigit = true) :
    A.next (c :: rest) =
      (A.numeral? (c :: rest)).map fun (text, after) => (.atom (.number (String.ofList text)), after) := by
  have hblank : c ∉ blanks := not_blank_of_part (A := A) (part_of_digit h)
  rw [next, if_neg hblank, if_neg (by simp [not_start_of_digit h]), if_pos (by simp [h])]

/-- A decimal numeral without an exponent: the digits before its point and what starts with it. -/
structure IsDecimal (whole fraction : List Char) : Prop where
  digits : ∀ c ∈ whole, c.isDigit = true
  unpadded : whole ≠ [] ∧ (whole.head? = some '0' → whole.length = 1)
  fraction : fraction = [] ∨ ∃ ds, ds ≠ [] ∧ (∀ c ∈ ds, c.isDigit = true) ∧ fraction = '.' :: ds

/-- What follows a numeral does not go on it. -/
theorem exponent_of_ends (h : A.Ends rest) : exponent rest = ([], rest) := by
  cases rest with
  | nil => rfl
  | cons c rest =>
    have hpart := h c rfl
    have hletter : ¬(c = 'e' ∨ c = 'E') := by
      rintro (rfl | rfl)
      · simp [A.part_ascii 'e' (by decide)] at hpart
      · simp [A.part_ascii 'E' (by decide)] at hpart
    simp [exponent, hletter]

theorem not_digit_of_ends (h : A.Ends rest) : ∀ c ∈ rest.head?, c.isDigit = false := by
  intro c hc
  cases hdigit : c.isDigit with
  | false => rfl
  | true => simpa [h c hc] using part_of_digit (A := A) hdigit

/-- What is behind the point is read up to where a numeral ends. A whole one must not be followed by a
point. -/
theorem fraction_append {whole part : List Char} (h : IsDecimal whole part) (hrest : A.Ends rest)
    (hpoint : part = [] → rest.head? ≠ some '.') : fraction (part ++ rest) = (part, rest) := by
  rcases h.fraction with rfl | ⟨ds, -, hds, rfl⟩
  · cases rest with
    | nil => rfl
    | cons c rest =>
      have hc : c ≠ '.' := fun hc => hpoint rfl (by rw [hc]; rfl)
      rw [List.nil_append, fraction]
      exact fun _ heq => hc (List.cons.inj heq).1
  · obtain ⟨htake, hdrop⟩ := takeWhile_append_ends hds (not_digit_of_ends hrest)
    rw [List.cons_append, fraction, htake, hdrop]

theorem numeral?_append {whole part : List Char} (h : IsDecimal whole part) (hrest : A.Ends rest)
    (hpoint : part = [] → rest.head? ≠ some '.') :
    A.numeral? (whole ++ (part ++ rest)) = some (whole ++ part, rest) := by
  have hafter : ∀ c ∈ (part ++ rest).head?, c.isDigit = false := by
    rcases h.fraction with rfl | ⟨ds, -, -, rfl⟩
    · exact not_digit_of_ends hrest
    · rintro c ⟨⟩
      rfl
  obtain ⟨htake, hdrop⟩ := takeWhile_append_ends h.digits hafter
  rw [numeral?, htake, hdrop, fraction_append h hrest hpoint]
  dsimp only
  rw [exponent_of_ends hrest]
  dsimp only
  have hunpadded : ¬(whole.head? = some '0' ∧ 1 < whole.length) := by
    rintro ⟨hzero, hlong⟩
    have hlength := h.unpadded.2 hzero
    omega
  have hends : ¬rest.head?.any A.isPart = true := by
    cases hhead : rest.head? with
    | none => exact Bool.false_ne_true
    | some c => simp [hrest c hhead]
  rw [if_neg (by simp [h.unpadded.1, hunpadded, hends]), List.append_nil]

/-- A numeral is the next lexeme. -/
theorem next_number {whole part : List Char} (h : IsDecimal whole part) (hrest : A.Ends rest)
    (hpoint : part = [] → rest.head? ≠ some '.') :
    A.next (whole ++ part ++ rest) = some (.atom (.number (String.ofList (whole ++ part))), rest) := by
  have hnumeral := numeral?_append h hrest hpoint
  obtain ⟨c, run, rfl⟩ := List.exists_cons_of_ne_nil h.unpadded.1
  rw [List.append_assoc, List.cons_append, next_of_digit (h.digits c List.mem_cons_self),
    ← List.cons_append, hnumeral]
  rfl

theorem sign_of_ne {cs : List Char} (h : ∀ c ∈ cs.head?, c ≠ '+' ∧ c ≠ '-') : sign cs = ([], cs) := by
  unfold sign
  split
  · exact absurd rfl (h '+' rfl).1
  · exact absurd rfl (h '-' rfl).2
  · rfl

/-- An exponent takes of a name characters that go on names. -/
theorem exponent_name {name : List Char} (hname : A.IsName name) (hrest : A.Ends rest)
    (hsign : ∀ c ∈ (name.tail ++ rest).head?, c ≠ '+' ∧ c ≠ '-') :
    ∃ left, (∀ c ∈ left, A.isPart c = true) ∧ (exponent (name ++ rest)).2 = left ++ rest := by
  cases name with
  | nil => exact hname.elim
  | cons c run =>
    rw [List.tail_cons] at hsign
    rw [List.cons_append, exponent, sign_of_ne hsign]
    dsimp only
    split
    · have hdrop := (takeWhile_of_ends (not_digit_of_ends hrest)).2
      refine ⟨run.dropWhile Char.isDigit, fun d hd => ?_, ?_⟩
      · exact hname.2 d ((List.dropWhile_sublist _).subset hd)
      rw [List.dropWhile_append]
      split
      next hempty => rw [List.isEmpty_iff.mp hempty, hdrop, List.nil_append]
      next => rfl
    · exact ⟨c :: run, isPart_of_isName hname, rfl⟩

/-- A numeral that goes on with a point and a name takes all of the name. -/
theorem numeral?_name {whole name text after : List Char} (hwhole : IsDecimal whole [])
    (hname : A.IsName name) (hrest : A.Ends rest)
    (hsign : ∀ c ∈ (name.tail ++ rest).head?, c ≠ '+' ∧ c ≠ '-')
    (h : A.numeral? (whole ++ '.' :: (name ++ rest)) = some (text, after)) : after = rest := by
  have hpoint : ∀ c ∈ ('.' :: (name ++ rest)).head?, c.isDigit = false := by
    rintro c ⟨⟩
    rfl
  have hdigit : ∀ c ∈ (name ++ rest).head?, c.isDigit = false := by
    cases name with
    | nil => exact hname.elim
    | cons c run =>
      rintro d ⟨⟩
      cases hdigit : c.isDigit with
      | false => rfl
      | true => simpa [not_start_of_digit hdigit] using hname.1
  obtain ⟨htake, hdrop⟩ := takeWhile_append_ends hwhole.digits hpoint
  obtain ⟨htake', hdrop'⟩ := takeWhile_of_ends hdigit
  obtain ⟨left, hleft, hexponent⟩ := exponent_name hname hrest hsign
  rw [numeral?, htake, hdrop, fraction, htake', hdrop'] at h
  dsimp only at h
  split at h
  next => cases h
  next hends =>
    -- What is left of the name would come right behind the numeral.
    obtain ⟨-, rfl⟩ := Prod.mk.inj (Option.some.inj h)
    rw [hexponent] at hends ⊢
    cases left with
    | nil => rfl
    | cons d left => simp [hleft d List.mem_cons_self] at hends

/-! ### Punctuation -/

/-- The characters that are neither in names nor in numerals, nor blanks or quotes. -/
def isPunctuation (c : Char) : Bool :=
  c.toNat < 128 && !c.isAlphanum && c ∉ ['_', '$', '\'', '\x22'] && c ∉ blanks

theorem not_part_of_punctuation (h : isPunctuation c = true) : A.isPart c = false := by
  simp only [isPunctuation, Bool.and_eq_true, decide_eq_true_eq, Bool.not_eq_true'] at h
  obtain ⟨⟨⟨hascii, halphanum⟩, hother⟩, -⟩ := h
  rw [A.part_ascii c hascii, halphanum]
  simp_all

/-- What goes on a name is no punctuation. -/
theorem ne_of_part (hd : A.isPart d = true) (hc : isPunctuation c = true) : c ≠ d := by
  rintro rfl
  rw [not_part_of_punctuation hc] at hd
  cases hd

theorem next_punctuation (hc : isPunctuation c = true)
    (hpoint : c = '.' → ¬rest.head?.any Char.isDigit = true) :
    A.next (c :: rest) = match bracket? c with
      | some l => some (l, rest)
      | none =>
        if c = '/' && (rest.head? = some '/' || rest.head? = some '*') then none
        else (mark? (c :: rest)).map fun (text, after) => (.atom (.mark text), after) := by
  have hpart : A.isPart c = false := not_part_of_punctuation hc
  have hstart : ¬A.isStart c = true := fun hstart => by simp [A.part_of_start c hstart] at hpart
  have hdigit : ¬c.isDigit = true := fun hdigit => by simp [part_of_digit (A := A) hdigit] at hpart
  simp only [isPunctuation, Bool.and_eq_true, decide_eq_true_eq] at hc
  have hquote : ¬(c = '\'' || c = '\x22') = true := by simp_all
  have hnumeral : ¬(c.isDigit || c = '.' && rest.head?.any Char.isDigit) = true := by
    simpa [hdigit] using hpoint
  rw [next]
  exact (if_neg hc.2).trans <| (if_neg hstart).trans <| (if_neg hnumeral).trans (if_neg hquote)

theorem next_bracket {l : Lexeme} (h : bracket? c = some l) (hc : isPunctuation c = true)
    (hpoint : c ≠ '.') (rest : List Char) : A.next (c :: rest) = some (l, rest) := by
  rw [next_punctuation hc fun h => absurd h hpoint, h]

theorem next_comma (rest : List Char) : A.next (',' :: rest) = some (.atom (.mark ","), rest) :=
  next_punctuation (c := ',') rfl fun h => absurd h (by decide)

/-- A minus sign in front of a name or a numeral. -/
theorem next_minus (h : ∃ c ∈ rest.head?, A.isPart c = true) :
    A.next ('-' :: rest) = some (.atom (.mark "-"), rest) := by
  obtain ⟨c, hc, hpart⟩ := h
  obtain ⟨rest, rfl⟩ := List.head?_eq_some_iff.mp hc
  have hminus : '-' ≠ c := ne_of_part hpart rfl
  have hequals : '=' ≠ c := ne_of_part hpart rfl
  rw [next_punctuation (c := '-') rfl fun h => absurd h (by decide)]
  simp [bracket?, mark?, marks, List.findSome?, List.isPrefixOf?, hminus, hequals]

/-- A point in front of a name. -/
theorem next_point (h : ∃ c ∈ rest.head?, A.isStart c = true) :
    A.next ('.' :: rest) = some (.atom (.mark "."), rest) := by
  obtain ⟨c, hc, hstart⟩ := h
  obtain ⟨rest, rfl⟩ := List.head?_eq_some_iff.mp hc
  have hdigit : ¬c.isDigit = true := fun hdigit => by simp [not_start_of_digit hdigit] at hstart
  have hpoint : '.' ≠ c := ne_of_part (A.part_of_start c hstart) rfl
  rw [next_punctuation (c := '.') rfl fun _ => by simpa using hdigit]
  simp [bracket?, mark?, marks, List.findSome?, List.isPrefixOf?, hpoint]

/-- What has no `b` in it ends in front of one. -/
theorem isPrefixOf?_append {ms : List Char} {b : Char} (h : b ∉ ms) (cs rest : List Char) :
    ms.isPrefixOf? (cs ++ b :: rest) = (ms.isPrefixOf? cs).map (· ++ b :: rest) := by
  induction ms generalizing cs with
  | nil => rfl
  | cons m ms ih =>
    obtain ⟨hm, hms⟩ := not_or.mp (mt List.mem_cons.mpr h)
    cases cs with
    | nil => simp [List.isPrefixOf?, Ne.symm hm]
    | cons c cs =>
      rw [List.cons_append, List.isPrefixOf?, List.isPrefixOf?, ih hms]
      split <;> rfl

/-- Marks end in front of blanks. -/
theorem mark?_blank (cs rest : List Char) :
    mark? (cs ++ ' ' :: rest) = (mark? cs).map fun (text, after) => (text, after ++ ' ' :: rest) := by
  have hblank : ∀ m ∈ marks, ' ' ∉ m.toList := by decide
  rw [mark?, mark?, List.map_findSome?, ← List.head?_filterMap, ← List.head?_filterMap]
  congr 1
  refine List.filterMap_congr fun m hm => ?_
  rw [isPrefixOf?_append (hblank m hm), Function.comp_apply, Option.map_map, Option.map_map]
  rfl

/-- The text starts with punctuation that is no bracket, and not with a comment. -/
def opensMark : List Char → Bool
  | [] => false
  | c :: run => isPunctuation c && c != '.' && (bracket? c).isNone && (c != '/' || run.isEmpty)

theorem next_of_opensMark {cs : List Char} {text : String} (h : opensMark cs = true)
    (hmark : mark? cs = some (text, [])) :
    A.next (cs ++ ' ' :: rest) = some (.atom (.mark text), ' ' :: rest) := by
  cases cs with
  | nil => cases h
  | cons c run =>
    simp only [opensMark, Bool.and_eq_true, bne_iff_ne, Option.isNone_iff_eq_none, Bool.or_eq_true,
      List.isEmpty_iff] at h
    obtain ⟨⟨⟨hpunctuation, hpoint⟩, hbracket⟩, hslash⟩ := h
    have hcomment (tail : List Char) (htail : tail = run ++ ' ' :: rest) :
        ¬(c = '/' && (tail.head? = some '/' || tail.head? = some '*')) = true := by
      rcases hslash with hslash | rfl
      · simp [hslash]
      · simp [htail]
    rw [List.cons_append, next_punctuation hpunctuation fun h => absurd h hpoint, hbracket]
    dsimp only
    rw [if_neg (hcomment _ rfl), ← List.cons_append, mark?_blank, hmark]
    rfl

/-- An operator between two expressions, in front of a blank. -/
theorem next_operator {op : String} {o : Operator} (h : operator? op = some o) (rest : List Char) :
    A.next (op.toList ++ ' ' :: rest) = some (.atom (operatorAtom op), ' ' :: rest) := by
  have hwords : ∀ op ∈ wordOperators, isAsciiName op.toList = true := by decide
  have hmarks : ∀ o ∈ operators, o.symbol ∉ wordOperators →
      opensMark o.symbol.toList = true ∧ mark? o.symbol.toList = some (o.symbol, []) := by
    decide
  obtain ⟨ho, rfl⟩ := of_operator? h
  by_cases hword : o.symbol ∈ wordOperators
  · have hends : A.Ends (' ' :: rest) := by
      rintro c ⟨⟩
      exact A.not_blank ' ' (by decide)
    rw [next_word (isName_of_ascii (hwords _ hword)) hends, operatorAtom, if_pos hword,
      String.ofList_toList]
  · obtain ⟨hopens, hmark⟩ := hmarks o ho hword
    rw [next_of_opensMark hopens hmark, operatorAtom, if_neg hword]

/-! ### Strings -/

theorem string?_escape (c : Char) (rest : List Char) :
    string? '\'' (Text.escape c ++ rest) =
      (string? '\'' rest).map fun (values, after) => (c :: values, after) := by
  unfold Text.escape
  split
  · cases h : string? '\'' rest <;> simp [string?, escaped?, h]
  · cases h : string? '\'' rest <;> simp [string?, escaped?, h]
  · cases h : string? '\'' rest <;> simp [string?, escaped?, h]
  · cases h : string? '\'' rest <;> simp [string?, escaped?, h]
  · cases h : string? '\'' rest <;> simp [string?, escaped?, h]
  next hquote hslash hfeed hreturn _ =>
    rw [List.singleton_append, string?, if_neg hquote, if_neg (by simpa using ⟨⟨hslash, hfeed⟩, hreturn⟩)]
    exact fun _ _ heq => absurd heq hslash

theorem string?_escaped (cs rest : List Char) :
    string? '\'' (cs.flatMap Text.escape ++ '\'' :: rest) = some (cs, rest) := by
  induction cs with
  | nil => rfl
  | cons c cs ih => rw [List.flatMap_cons, List.append_assoc, string?_escape, ih, Option.map_some]

/-- A string literal is read as its value. -/
theorem next_string (s : String) (rest : List Char) :
    A.next ((Text.quote s).toList ++ rest) = some (.atom (.string s), rest) := by
  have hstart : ¬A.isStart '\'' = true := by
    simp [A.start_ascii '\'' (by decide)]
  rw [Text.quote, String.toList_ofList, Text.quoteChars, List.cons_append, List.append_assoc, next,
    if_neg (by decide), if_neg hstart, if_neg (by simp [Char.isDigit]), if_pos (by decide),
    List.singleton_append, string?_escaped, Option.map_some]
  dsimp only
  rw [String.ofList_toList]

end Alphabet

end Lowering.Script
