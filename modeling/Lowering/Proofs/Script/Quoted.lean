import Lowering.Proofs.Script.Scanning

/-! String literals end where they were closed.

Of the quotes behind the opening one, a literal is closed by the first that no unpaired backslash
stands before. Reading a literal pairs each backslash with the character behind it and so stops at
this quote (`encloses_of_string?`), of which there is one at most (`Encloses.unique`). A literal that
is written for a text is read as this text and nothing behind it, whatever it is followed by. So it is
closed by its last character, and no two literals begin the same text (`quote_encloses`). -/
namespace Lowering.Script

/-! ### Unpaired backslashes -/

/-- How many backslashes stand at the end of a text. -/
def backslashesAtEnd (cs : List Char) : Nat := (cs.reverse.takeWhile (· = '\\')).length

/-- The last of the backslashes at the end of a text is left over when they are paired. -/
def EndsUnpaired (cs : List Char) : Prop := backslashesAtEnd cs % 2 = 1

theorem backslashesAtEnd_append (front cs : List Char) :
    backslashesAtEnd (front ++ cs) =
      if backslashesAtEnd cs = cs.length then cs.length + backslashesAtEnd front
      else backslashesAtEnd cs := by
  rw [backslashesAtEnd, List.reverse_append, List.takeWhile_append, List.length_reverse]
  show (if backslashesAtEnd cs = cs.length then _ else _ : List Char).length = _
  by_cases hall : backslashesAtEnd cs = cs.length
  · rw [if_pos hall, if_pos hall, List.length_append, List.length_reverse]
    rfl
  · rw [if_neg hall, if_neg hall]
    rfl

/-- What is paired in front does not change which backslash is left over. -/
theorem endsUnpaired_append {front cs : List Char} (h : backslashesAtEnd front % 2 = 0) :
    EndsUnpaired (front ++ cs) ↔ EndsUnpaired cs := by
  rw [EndsUnpaired, EndsUnpaired, backslashesAtEnd_append]
  split
  · omega
  · rfl

theorem endsUnpaired_cons {c : Char} {cs : List Char} (hc : c ≠ '\\') :
    EndsUnpaired (c :: cs) ↔ EndsUnpaired cs := by
  have hpaired : backslashesAtEnd [c] % 2 = 0 := by simp [backslashesAtEnd, hc]
  exact endsUnpaired_append hpaired

theorem endsUnpaired_escape {c : Char} {cs : List Char} :
    EndsUnpaired ('\\' :: c :: cs) ↔ EndsUnpaired cs := by
  have hpaired : backslashesAtEnd ['\\', c] % 2 = 0 := by
    by_cases hc : c = '\\' <;> simp [backslashesAtEnd, hc]
  exact endsUnpaired_append hpaired

/-! ### Closing quotes -/

/-- A text begins with a literal: of the quotes behind the opening one, that behind `inside` is the
first that no unpaired backslash stands before. -/
structure Encloses (text inside after : List Char) : Prop where
  split : text = '\'' :: (inside ++ '\'' :: after)
  closing : ¬EndsUnpaired inside
  first : ∀ front back, inside = front ++ '\'' :: back → EndsUnpaired front

theorem Encloses.eq_of_append {text inside inside' after after' more : List Char}
    (h : Encloses text inside after) (h' : Encloses text inside' after') (hinside : inside' = inside ++ more)
    (hafter : '\'' :: after = more ++ '\'' :: after') : inside' = inside ∧ after' = after := by
  cases more with
  | nil => exact ⟨hinside.trans (List.append_nil inside), (List.cons.inj hafter).2.symm⟩
  | cons c more =>
    obtain ⟨rfl, -⟩ := List.cons.inj hafter
    exact absurd (h'.first inside more hinside) h.closing

/-- A text begins with one literal at most. -/
theorem Encloses.unique {text inside inside' after after' : List Char} (h : Encloses text inside after)
    (h' : Encloses text inside' after') : inside' = inside ∧ after' = after := by
  obtain ⟨-, hsplit⟩ := List.cons.inj (h.split.symm.trans h'.split)
  rcases List.append_eq_append_iff.mp hsplit with ⟨more, hinside, hafter⟩ | ⟨more, hinside, hafter⟩
  · exact h.eq_of_append h' hinside hafter
  · obtain ⟨hi, ha⟩ := h'.eq_of_append h hinside hafter
    exact ⟨hi.symm, ha.symm⟩

theorem Encloses.cons {cs inside after : List Char} {c : Char} (h : Encloses ('\'' :: cs) inside after)
    (hquote : c ≠ '\'') (hc : c ≠ '\\') : Encloses ('\'' :: c :: cs) (c :: inside) after := by
  refine ⟨?_, mt (endsUnpaired_cons hc).mp h.closing, fun front back hfront => ?_⟩
  · rw [(List.cons.inj h.split).2]
    rfl
  · cases front with
    | nil => exact absurd (List.cons.inj hfront).1 hquote
    | cons d front =>
      obtain ⟨rfl, hinside⟩ := List.cons.inj hfront
      exact (endsUnpaired_cons hc).mpr (h.first front back hinside)

theorem Encloses.escape {cs inside after : List Char} (c : Char) (h : Encloses ('\'' :: cs) inside after) :
    Encloses ('\'' :: '\\' :: c :: cs) ('\\' :: c :: inside) after := by
  refine ⟨?_, mt endsUnpaired_escape.mp h.closing, fun front back hfront => ?_⟩
  · rw [(List.cons.inj h.split).2]
    rfl
  · match front with
    | [] => simp at hfront
    | [d] =>
      obtain ⟨rfl, -⟩ := List.cons.inj hfront
      rfl
    | d :: d' :: front =>
      simp only [List.cons_append, List.cons.injEq] at hfront
      obtain ⟨rfl, rfl, hfront⟩ := hfront
      exact endsUnpaired_escape.mpr (h.first front back hfront)

/-- Reading a literal stops at the quote that closes it. -/
theorem encloses_of_string? {cs values after : List Char} (h : string? '\'' cs = some (values, after)) :
    ∃ inside, Encloses ('\'' :: cs) inside after := by
  induction cs using string?.induct '\'' generalizing values with
  | case1 => cases h
  | case2 c rest ih =>
    rw [string?] at h
    obtain ⟨value, -, h⟩ := Option.bind_eq_some_iff.mp h
    obtain ⟨⟨values', after'⟩, hrest, h⟩ := Option.bind_eq_some_iff.mp h
    obtain ⟨-, rfl⟩ := Prod.mk.inj (Option.some.inj h)
    obtain ⟨inside, hinside⟩ := ih hrest
    exact ⟨_, hinside.escape c⟩
  | case3 rest hescape =>
    rw [string?, if_pos rfl] at h
    · obtain ⟨-, rfl⟩ := Prod.mk.inj (Option.some.inj h)
      exact ⟨[], rfl, by simp [EndsUnpaired, backslashesAtEnd], by simp⟩
    · exact hescape
  | case4 c rest hescape hquote hraw =>
    rw [string?, if_neg hquote, if_pos hraw] at h
    · cases h
    · exact hescape
  | case5 c rest hescape hquote hraw ih =>
    rw [string?, if_neg hquote, if_neg hraw] at h
    · obtain ⟨⟨values', after'⟩, hrest, h⟩ := Option.map_eq_some_iff.mp h
      obtain ⟨-, rfl⟩ := Prod.mk.inj h
      obtain ⟨inside, hinside⟩ := ih hrest
      have hc : c ≠ '\\' := by
        rintro rfl
        simp at hraw
      exact ⟨_, hinside.cons hquote hc⟩
    · exact hescape

/-! ### Literals of texts -/

theorem not_mem_escape {c : Char} (hc : c ∈ ['\n', '\r', '\t']) (d : Char) : c ∉ Text.escape d := by
  simp only [List.mem_cons, List.not_mem_nil, or_false] at hc
  unfold Text.escape
  split <;> grind

/-- No line break and no tab of a text is left in its literal. -/
theorem not_mem_quote {c : Char} (hc : c ∈ ['\n', '\r', '\t']) (s : String) : c ∉ (Text.quote s).toList := by
  have hquote : c ≠ '\'' := by
    rintro rfl
    simp at hc
  rw [Text.quote, String.toList_ofList, Text.quoteChars]
  simp [hquote, not_mem_escape hc]

/-- What stands between the quotes of a literal. -/
def escaped (s : String) : List Char := s.toList.flatMap Text.escape

theorem quote_append (s : String) (rest : List Char) :
    (Text.quote s).toList ++ rest = '\'' :: (escaped s ++ '\'' :: rest) := by
  rw [Text.quote, String.toList_ofList, Text.quoteChars, List.cons_append, List.append_assoc]
  rfl

/-- Whatever comes after a literal, it is closed by its own last character. -/
theorem encloses_quote (s : String) (rest : List Char) :
    Encloses ((Text.quote s).toList ++ rest) (escaped s) rest := by
  obtain ⟨inside, hinside⟩ := encloses_of_string? (Alphabet.string?_escaped s.toList rest)
  have hescaped : escaped s = inside := List.append_cancel_right (List.cons.inj hinside.split).2
  rw [quote_append, hescaped]
  exact hescaped ▸ hinside

theorem encloses_quote_iff {s : String} {rest inside after : List Char} :
    Encloses ((Text.quote s).toList ++ rest) inside after ↔ inside = escaped s ∧ after = rest := by
  constructor
  · exact (encloses_quote s rest).unique
  · rintro ⟨rfl, rfl⟩
    exact encloses_quote s after

/-- A text that begins with a literal tells what the literal says and what comes after it. -/
theorem quote_append_inj {s s' rest rest' : String} :
    Text.quote s ++ rest = Text.quote s' ++ rest' ↔ s = s' ∧ rest = rest' := by
  constructor
  · intro h
    have hlists := congrArg String.toList h
    rw [String.toList_append, String.toList_append, quote_append, quote_append] at hlists
    have hread := congrArg (string? '\'') (List.cons.inj hlists).2
    rw [escaped, escaped, Alphabet.string?_escaped, Alphabet.string?_escaped] at hread
    obtain ⟨hs, hrest⟩ := Prod.mk.inj (Option.some.inj hread)
    exact ⟨String.toList_injective hs, String.toList_injective hrest⟩
  · rintro ⟨rfl, rfl⟩
    rfl

/-- **No line break and no tab of a text is in its literal. Whatever comes after it, a literal is closed by
its own last character and is read as its text, so that literals which begin one text are those of
one text.** -/
theorem quote_encloses (s : String) :
    ('\n' ∉ (Text.quote s).toList ∧ '\r' ∉ (Text.quote s).toList ∧ '\t' ∉ (Text.quote s).toList) ∧
      (∃ inside, (Text.quote s).toList = '\'' :: (inside ++ ['\'']) ∧ ∀ rest,
        (∀ inside' after, Encloses ((Text.quote s).toList ++ rest) inside' after ↔
          inside' = inside ∧ after = rest) ∧
        string? '\'' (inside ++ '\'' :: rest) = some (s.toList, rest)) ∧
      (∀ s' rest rest', Text.quote s ++ rest = Text.quote s' ++ rest' ↔ s = s' ∧ rest = rest') ∧
      Function.Injective Text.quote := by
  have hraw {c : Char} (hc : c ∈ ['\n', '\r', '\t']) : c ∉ (Text.quote s).toList := not_mem_quote hc s
  have hquoted : (Text.quote s).toList = '\'' :: (escaped s ++ ['\'']) := by
    simpa using quote_append s []
  have hread (rest : List Char) : string? '\'' (escaped s ++ '\'' :: rest) = some (s.toList, rest) :=
    Alphabet.string?_escaped s.toList rest
  have hinjective : Function.Injective Text.quote := fun s₁ s₂ h =>
    (quote_append_inj.mp (congrArg (· ++ "") h)).1
  exact ⟨⟨hraw (by simp), hraw (by simp), hraw (by simp)⟩,
    ⟨escaped s, hquoted, fun rest => ⟨fun inside' after => encloses_quote_iff, hread rest⟩⟩,
    fun s' rest rest' => quote_append_inj, hinjective⟩

/-- A backslash in front of a quote leaves neither of them unescaped. -/
example : Text.quote "\\'" = "'\\\\\\''" := by decide

end Lowering.Script
