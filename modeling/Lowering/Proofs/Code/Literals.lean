import Lowering.Proofs.Code.Tree
import Lowering.Proofs.Script.Reading

/-! How literals are read.

A number is written as a decimal numeral without an exponent, behind a minus sign where it is
negative. There are no zeros in front, and there is a digit on both sides of a point
(`isDecimal_positional`), so that a script reads the numeral as it is. Strings are read back as
their values. Only a whole numeral runs together with a name behind a point (`reads_whole`). -/
namespace Lowering

/-! ### Numerals -/

open Script (head?_append_of_ne_nil)
open Script.Alphabet (IsDecimal)

theorem isDigit_toDigits {n : Nat} {c : Char} (h : c ∈ Nat.toDigits 10 n) : c.isDigit = true :=
  Nat.isDigit_of_mem_toDigits (by decide) (by decide) h

/-- Only zero starts with a zero. -/
theorem head?_toDigits {n : Nat} (h : n ≠ 0) : (Nat.toDigits 10 n).head? ≠ some '0' := by
  induction n using Nat.strongRecOn with
  | ind n ih =>
    rw [Nat.toDigits_eq_if (by decide)]
    split
    next hlt =>
      have hdigit : ∀ n < 10, n ≠ 0 → [n.digitChar].head? ≠ some '0' := by decide
      exact hdigit n hlt h
    next hge =>
      rw [head?_append_of_ne_nil Nat.toDigits_ne_nil]
      exact ih (n / 10) (by omega) (by omega)

theorem isDecimal_toDigits (n : Nat) : IsDecimal (Nat.toDigits 10 n) [] where
  digits _ hc := isDigit_toDigits hc
  unpadded := by
    refine ⟨Nat.toDigits_ne_nil, fun hzero => ?_⟩
    by_cases h : n = 0
    · rw [h]
      rfl
    · exact absurd hzero (head?_toDigits h)
  fraction := .inl rfl

namespace Decimal

theorem isDigit_zero {k : Nat} {c : Char} (h : c ∈ List.replicate k '0') : c.isDigit = true := by
  rw [List.eq_of_mem_replicate h]
  rfl

/-- With zeros behind it a number that is not zero is written without a zero in front. -/
theorem isDecimal_append_zeros {n : Nat} (h : n ≠ 0) (zeros : Nat) :
    IsDecimal (Nat.toDigits 10 n ++ List.replicate zeros '0') [] where
  digits c hc := by
    rcases List.mem_append.mp hc with hc | hc
    · exact isDigit_toDigits hc
    · exact isDigit_zero hc
  unpadded := by
    refine ⟨List.append_ne_nil_of_left_ne_nil Nat.toDigits_ne_nil _, fun hzero => ?_⟩
    rw [head?_append_of_ne_nil Nat.toDigits_ne_nil] at hzero
    exact absurd hzero (head?_toDigits h)
  fraction := .inl rfl

/-- A point divides digits, if there are some in front of it and no more than one where they start with
a zero. -/
theorem isDecimal_of_point {ds : List Char} {places : Nat} (hdigits : ∀ c ∈ ds, c.isDigit = true)
    (hpoint : 0 < places) (hlong : places < ds.length)
    (hpadded : ds.head? = some '0' → ds.length = places + 1) :
    IsDecimal (ds.take (ds.length - places)) ('.' :: ds.drop (ds.length - places)) where
  digits c hc := hdigits c (List.mem_of_mem_take hc)
  unpadded := by
    have hwhole : (ds.take (ds.length - places)).length = ds.length - places :=
      List.length_take_of_le (Nat.sub_le _ _)
    refine ⟨List.ne_nil_of_length_pos (by omega), fun hzero => ?_⟩
    rw [List.head?_take, if_neg (by omega)] at hzero
    have hlength := hpadded hzero
    omega
  fraction := by
    refine .inr ⟨_, List.ne_nil_of_length_pos ?_, fun c hc => hdigits c (List.mem_of_mem_drop hc), rfl⟩
    rw [List.length_drop]
    omega

/-- A decimal is written as a numeral. -/
theorem isDecimal_positional (d : Decimal) :
    ∃ whole part, d.positional = String.ofList (whole ++ part) ∧ IsDecimal whole part := by
  obtain ⟨digits, exponent⟩ := d
  cases exponent with
  | ofNat e =>
    by_cases hzero : digits = 0
    · exact ⟨Nat.toDigits 10 digits, [], by simp [positional, hzero], isDecimal_toDigits digits⟩
    · exact ⟨_, [], by simp [positional, hzero], isDecimal_append_zeros hzero e⟩
  | negSucc e =>
    let text := Nat.toDigits 10 digits
    let zeros := e + 1 + 1 - text.length
    let padded := List.replicate zeros '0' ++ text
    have hdigits : ∀ c ∈ padded, c.isDigit = true := by
      intro c hc
      rcases List.mem_append.mp hc with hc | hc
      · exact isDigit_zero hc
      · exact isDigit_toDigits hc
    have hlength : padded.length = zeros + text.length := by
      rw [List.length_append, List.length_replicate]
    have hpadded : padded.head? = some '0' → padded.length = e + 1 + 1 := by
      intro hzero
      by_cases hlong : e + 1 + 1 < text.length
      · -- The digits reach in front of the point, so that no zeros are filled in.
        have htext : padded = text := by
          show List.replicate (e + 1 + 1 - text.length) '0' ++ text = text
          rw [Nat.sub_eq_zero_of_le (Nat.le_of_lt hlong)]
          rfl
        have hne : digits ≠ 0 := by
          rintro rfl
          have hone : text.length = 1 := rfl
          omega
        rw [htext] at hzero
        exact absurd hzero (head?_toDigits hne)
      · omega
    exact ⟨padded.take (padded.length - (e + 1)), '.' :: padded.drop (padded.length - (e + 1)), rfl,
      isDecimal_of_point hdigits (Nat.succ_pos e) (by omega) hpadded⟩

end Decimal

/-! ### Literals -/

open Script (Reads Follows Alphabet Atom Form flatten)

/-- The atom as it is written. -/
def Script.Atom.text : Atom → String
  | word t | number t | mark t => t
  | string s => Text.quote s

/-- Whether the atom is a numeral without a point. -/
def Script.Atom.isWhole : Atom → Bool
  | number t => '.' ∉ t.toList
  | _ => false

namespace Literal

variable {A : Alphabet} {t : String}

/-- The words that literals are written with. -/
def words : List String := ["null", "true", "false", "NaN", "Infinity"]

theorem magnitude_cases (v : Literal) :
    (∃ t ∈ words, v.magnitude = .word t) ∨
      (∃ whole part, v.magnitude = .number (String.ofList (whole ++ part)) ∧ IsDecimal whole part) ∨
        ∃ s, v = .string s := by
  cases v with
  | null => exact .inl ⟨"null", by decide, rfl⟩
  | bool b =>
    refine .inl ⟨_, ?_, rfl⟩
    cases b <;> decide
  | int n =>
    refine .inr (.inl ⟨_, [], ?_, isDecimal_toDigits n.toInt.natAbs⟩)
    rw [List.append_nil]
    rfl
  | number x =>
    rw [magnitude]
    split
    · exact .inl ⟨"NaN", by decide, rfl⟩
    · split
      · exact .inl ⟨"Infinity", by decide, rfl⟩
      · obtain ⟨whole, part, htext, hdecimal⟩ := (Decimal.shortest x).isDecimal_positional
        exact .inr (.inl ⟨whole, part, by rw [htext], hdecimal⟩)
  | string s => exact .inr (.inr ⟨s, rfl⟩)

/-- There is a point in a numeral exactly if there are digits behind one. -/
theorem isWhole_ofList {whole part : List Char} (h : IsDecimal whole part) :
    (Atom.number (String.ofList (whole ++ part))).isWhole = part.isEmpty := by
  have hwhole : '.' ∉ whole := fun hpoint => absurd (h.digits '.' hpoint) (by decide)
  rw [Atom.isWhole, String.toList_ofList]
  rcases h.fraction with rfl | ⟨ds, -, -, rfl⟩ <;> simp [hwhole]

/-- A literal is its sign and its magnitude. -/
theorem render_eq (v : Literal) : v.render = (if v.isNegative then "-" else "") ++ v.magnitude.text := by
  cases v with
  | null => rfl
  | bool b => cases b <;> rfl
  | int n =>
    rw [render, isNegative, magnitude, Atom.text]
    cases n.toInt with
    | ofNat k => exact (String.empty_append).symm
    | negSucc k =>
      rw [if_pos (decide_eq_true (Int.negSucc_lt_zero k))]
      rfl
  | number x =>
    rw [render, isNegative, magnitude]
    cases hnan : x.isNaN with
    | true => rfl
    | false =>
      cases hinfinite : x.isInfinite with
      | true => cases x.isNegative <;> rfl
      | false => simp [Binary64.text, hnan, hinfinite, Atom.text]
  | string s => exact (String.empty_append).symm

theorem isName_words : ∀ t ∈ words, Alphabet.isAsciiName t.toList = true := by
  decide

theorem reads_magnitude (v : Literal) :
    Reads A (Follows !v.magnitude.isWhole) v.magnitude.text.toList [.atom v.magnitude] True := by
  rcases v.magnitude_cases with ⟨t, ht, hword⟩ | ⟨whole, part, hnumber, hdecimal⟩ | ⟨s, rfl⟩
  · rw [hword]
    exact (Script.reads_ascii t (isName_words t ht)).of_ends _
  · rw [hnumber, isWhole_ofList hdecimal, Atom.text, String.toList_ofList]
    exact Script.reads_number hdecimal
  · exact (Script.reads_string s).of_anything _

/-- A sign comes right before a name or a digit. -/
theorem starts_magnitude {v : Literal} (h : v.isNegative = true) (rest : List Char) :
    ∃ c ∈ (v.magnitude.text.toList ++ rest).head?, A.isPart c = true := by
  rcases v.magnitude_cases with ⟨t, ht, hword⟩ | ⟨whole, part, hnumber, hdecimal⟩ | ⟨s, rfl⟩
  · have hname := Alphabet.isName_of_ascii (A := A) (isName_words t ht)
    rw [hword, Atom.text]
    cases htext : t.toList with
    | nil =>
      rw [htext] at hname
      exact hname.elim
    | cons c run =>
      rw [htext] at hname
      exact ⟨c, rfl, A.part_of_start c hname.1⟩
  · obtain ⟨c, digits, rfl⟩ := List.exists_cons_of_ne_nil hdecimal.unpadded.1
    rw [hnumber, Atom.text, String.toList_ofList]
    exact ⟨c, rfl, Alphabet.part_of_digit (hdecimal.digits c List.mem_cons_self)⟩
  · cases h

/-- A literal is read as what it is meant to be. -/
theorem reads_render (v : Literal) :
    Reads A (Follows !v.magnitude.isWhole) v.render.toList (flatten v.tree.phrases) True := by
  rw [render_eq, tree]
  cases hnegative : v.isNegative with
  | false => exact v.reads_magnitude.of_eq (by simp) rfl Iff.rfl
  | true =>
    have hsigned := Script.reads_minus.append v.reads_magnitude fun rest _ =>
      starts_magnitude (A := A) hnegative rest
    exact hsigned.of_eq (by simp) rfl (by simp)

/-- A name behind a whole numeral and a point runs together with it. -/
theorem reads_whole {v : Literal} {name : String} (h : v.magnitude.isWhole = true)
    (hname : A.IsName name.toList) :
    Reads A (Follows true) (v.render.toList ++ '.' :: name.toList)
      (flatten (Form.access v.tree name).phrases) False := by
  obtain ⟨whole, hnumber, hdecimal⟩ :
      ∃ whole, v.magnitude = .number (String.ofList whole) ∧ IsDecimal whole [] := by
    rcases v.magnitude_cases with ⟨t, -, hword⟩ | ⟨whole, part, hnumber, hdecimal⟩ | ⟨s, rfl⟩
    · rw [hword] at h
      cases h
    · rw [hnumber, isWhole_ofList hdecimal, List.isEmpty_iff] at h
      subst h
      exact ⟨whole, by rw [hnumber, List.append_nil], hdecimal⟩
    · cases h
  have hfused := Script.reads_fused hdecimal hname
  rw [render_eq, tree, hnumber, Atom.text, Form.phrases, Script.flatten_append]
  cases hnegative : v.isNegative with
  | false => exact hfused.of_eq (by simp) rfl Iff.rfl
  | true =>
    have hsigned := Script.reads_minus.append hfused fun rest _ => by
      have hstarts := starts_magnitude (A := A) hnegative ('.' :: (name.toList ++ rest))
      rw [hnumber, Atom.text, String.toList_ofList] at hstarts
      rwa [List.append_assoc, List.cons_append]
    exact hsigned.of_eq (by simp) rfl (by simp)

end Literal

end Lowering
