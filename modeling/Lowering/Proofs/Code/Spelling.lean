import Lowering.Proofs.Code.Uses

/-! How the spelling of names shows in the text of code.

Spellings that agree on the names that code uses give the same text. And spellings that
differ at one name give different texts as soon as the name is used: with the longer
identifier no piece of the text gets shorter, so that texts of one length are put together
from pieces of the same lengths, and equal texts from equal pieces. String literals have
no part in this, since escaping changes lengths. -/
namespace Lowering

/-! ### Joined texts -/

section
variable {α : Type} {f g : α → String}

theorem length_join_map_le {l : List α} (hle : ∀ a ∈ l, (f a).length ≤ (g a).length) :
    (String.join (l.map f)).length ≤ (String.join (l.map g)).length := by
  induction l with
  | nil => exact Nat.le_refl _
  | cons a rest ih =>
    obtain ⟨ha, hrest⟩ := List.forall_mem_cons.mp hle
    have hjoin := ih hrest
    rw [List.map_cons, List.map_cons, String.join_cons, String.join_cons, String.length_append,
      String.length_append]
    omega

/-- Texts of one length that begin equal strings are equal. -/
theorem append_inj_of_length {a b c d : String} (hlength : a.length = b.length)
    (h : a ++ c = b ++ d) : a = b ∧ c = d := by
  have hlist := congrArg String.toList h
  rw [String.toList_append, String.toList_append] at hlist
  obtain ⟨hfirst, hrest⟩ := List.append_inj hlist (by rw [String.length_toList, String.length_toList, hlength])
  exact ⟨String.toList_injective hfirst, String.toList_injective hrest⟩

/-- Where no part is longer than its counterpart, equal texts have equal parts. -/
theorem join_map_inj {l : List α} (hle : ∀ a ∈ l, (f a).length ≤ (g a).length)
    (h : String.join (l.map f) = String.join (l.map g)) : ∀ a ∈ l, f a = g a := by
  induction l with
  | nil => simp
  | cons a rest ih =>
    obtain ⟨ha, hrest⟩ := List.forall_mem_cons.mp hle
    rw [List.map_cons, List.map_cons, String.join_cons, String.join_cons] at h
    have hlength : (f a).length = (g a).length := by
      have hjoin := length_join_map_le hrest
      have htotal := congrArg String.length h
      rw [String.length_append, String.length_append] at htotal
      omega
    obtain ⟨hfirst, hothers⟩ := append_inj_of_length hlength h
    exact List.forall_mem_cons.mpr ⟨hfirst, ih hrest hothers⟩

end

/-! ### Spellings that agree -/

variable {s s' : Name → String}

/-- A piece that is no use is the same in every spelling. -/
theorem Piece.text_of_not_use {p : Piece} (h : p.isUse = false) : p.text s = p.text s' := by
  cases p with
  | verbatim text => rfl
  | name use n => exact absurd h (by simp [isUse])
  | quoted n => exact absurd h (by simp [isUse])

theorem Code.pieces_congr {c : Code} (h : ∀ p ∈ c.uses, p.text s = p.text s') :
    ∀ p ∈ c, p.text s = p.text s' := by
  intro p hp
  cases huse : p.isUse with
  | true => exact h p (List.mem_filter.mpr ⟨hp, huse⟩)
  | false => exact Piece.text_of_not_use huse

theorem Code.text_congr {c : Code} (h : ∀ p ∈ c.uses, p.text s = p.text s') :
    c.text s = c.text s' := by
  rw [text, text, List.map_congr_left (pieces_congr h)]

namespace Layout

/-- The steps, each with the level of nesting at which it is taken. -/
def placed (depth : Nat) : Layout → List (Nat × LayoutStep)
  | [] => []
  | step :: rest => (depth, step) :: placed (step.depthAfter depth) rest

theorem texts_eq (spelling : Name → String) (l : Layout) (depth : Nat) :
    l.texts spelling depth = (l.placed depth).map fun p => p.2.text spelling p.1 := by
  induction l generalizing depth with
  | nil => rfl
  | cons step rest ih => rw [texts, placed, List.map_cons, ih]

theorem map_placed (l : Layout) (depth : Nat) : (l.placed depth).map (·.2) = l := by
  induction l generalizing depth with
  | nil => rfl
  | cons step rest ih => rw [placed, List.map_cons, ih]

/-- Spellings that agree on what a layout uses give it one text. -/
theorem text_congr {l : Layout} (h : ∀ p ∈ l.uses, p.text s = p.text s') (depth : Nat) :
    l.text s depth = l.text s' depth := by
  have hstep : ∀ p ∈ l.placed depth, p.2.text s p.1 = p.2.text s' p.1 := by
    intro p hp
    have hmem : p.2 ∈ l := map_placed l depth ▸ List.mem_map_of_mem hp
    cases hp2 : p.2 with
    | line code =>
      have huses : ∀ q ∈ code.uses, q.text s = q.text s' := fun q hq =>
        h q (List.mem_flatMap.mpr ⟨p.2, hmem, by rw [hp2]; exact hq⟩)
      rw [LayoutStep.text, LayoutStep.text, Code.text_congr huses]
    | blank => rfl
    | indent => rfl
    | dedent => rfl
  rw [text, text, texts_eq, texts_eq, List.map_congr_left hstep]

end Layout

/-! ### Spellings that differ -/

/-- Spellings that differ at `n` at most, where the second identifier is no shorter. -/
structure Lengthens (n : Name) (s s' : Name → String) : Prop where
  others : ∀ m, m ≠ n → s m = s' m
  length_le : (s n).length ≤ (s' n).length

variable {n : Name}

/-- Outside string literals no piece gets shorter. -/
theorem Lengthens.piece_length_le (h : Lengthens n s s') {p : Piece} (hp : p ≠ .quoted n) :
    (p.text s).length ≤ (p.text s').length := by
  cases p with
  | verbatim text => exact Nat.le_refl _
  | name use m =>
    by_cases hm : m = n
    · subst hm
      exact h.length_le
    · exact Nat.le_of_eq (congrArg String.length (h.others m hm))
  | quoted m =>
    have hm : m ≠ n := fun hm => hp (hm ▸ rfl)
    exact Nat.le_of_eq (congrArg (fun t => (Text.quote t).length) (h.others m hm))

theorem Lengthens.code_length_le (h : Lengthens n s s') {c : Code} (hc : .quoted n ∉ c) :
    (c.text s).length ≤ (c.text s').length :=
  length_join_map_le fun _ hp => h.piece_length_le fun heq => hc (heq ▸ hp)

theorem Lengthens.code_inj (h : Lengthens n s s') {c : Code} (hc : .quoted n ∉ c)
    (htext : c.text s = c.text s') : ∀ p ∈ c, p.text s = p.text s' :=
  join_map_inj (fun _ hp => h.piece_length_le fun heq => hc (heq ▸ hp)) htext

namespace LayoutStep

theorem text_line_empty {c : Code} (h : c.text s = "") (depth : Nat) :
    (line c).text s depth = "\n" := by
  rw [text, h]
  rfl

theorem text_line_nonempty {c : Code} (h : c.text s ≠ "") (depth : Nat) :
    (line c).text s depth = margin depth ++ c.text s ++ "\n" := by
  have hempty : (c.text s).isEmpty = false := by simpa using h
  rw [text, hempty]
  rfl

theorem length_line_empty {c : Code} (h : c.text s = "") (depth : Nat) :
    ((line c).text s depth).length = 1 := by
  rw [text_line_empty h]
  rfl

theorem length_line_nonempty {c : Code} (h : c.text s ≠ "") (depth : Nat) :
    ((line c).text s depth).length = (margin depth).length + (c.text s).length + 1 := by
  rw [text_line_nonempty h, String.length_append, String.length_append]
  rfl

/-- A line gets no shorter by its code. -/
theorem length_line_le {c : Code} (h : (c.text s).length ≤ (c.text s').length) (depth : Nat) :
    ((line c).text s depth).length ≤ ((line c).text s' depth).length := by
  by_cases hs : c.text s = "" <;> by_cases hs' : c.text s' = ""
  · have hl := length_line_empty hs depth
    have hl' := length_line_empty hs' depth
    omega
  · rw [length_line_empty hs, length_line_nonempty hs']
    omega
  · rw [hs'] at h
    exact absurd (by simpa using h) hs
  · rw [length_line_nonempty hs, length_line_nonempty hs']
    omega

/-- Equal lines have equal code, since an empty line has no margin. -/
theorem code_text_inj {c : Code} {depth : Nat}
    (h : (line c).text s depth = (line c).text s' depth) : c.text s = c.text s' := by
  have hlength := congrArg String.length h
  have hpos {t : String} (ht : t ≠ "") : 0 < t.length :=
    Nat.pos_of_ne_zero (mt String.length_eq_zero_iff.mp ht)
  by_cases hs : c.text s = "" <;> by_cases hs' : c.text s' = ""
  · rw [hs, hs']
  · rw [length_line_empty hs, length_line_nonempty hs'] at hlength
    have := hpos hs'
    omega
  · rw [length_line_nonempty hs, length_line_empty hs'] at hlength
    have := hpos hs
    omega
  · rw [text_line_nonempty hs, text_line_nonempty hs'] at h
    simpa using h

end LayoutStep

namespace Layout

/-- No step writes less with the longer identifier. -/
theorem step_length_le (h : Lengthens n s s') {l : Layout} (hl : .quoted n ∉ l.uses)
    {step : LayoutStep} (hstep : step ∈ l) (depth : Nat) :
    (step.text s depth).length ≤ (step.text s' depth).length := by
  cases step with
  | line code =>
    refine LayoutStep.length_line_le (h.code_length_le fun hquoted => hl ?_) depth
    exact List.mem_flatMap.mpr ⟨.line code, hstep, List.mem_filter.mpr ⟨hquoted, rfl⟩⟩
  | blank => exact Nat.le_refl _
  | indent => exact Nat.le_refl _
  | dedent => exact Nat.le_refl _

/-- Where the longer identifier leaves the text as it is, it leaves every piece as it is. -/
theorem text_inj (h : Lengthens n s s') {l : Layout} (hl : .quoted n ∉ l.uses) {depth : Nat}
    (htext : l.text s depth = l.text s' depth) : ∀ p ∈ l.uses, p.text s = p.text s' := by
  rw [text, text, texts_eq, texts_eq] at htext
  have hmem {p : Nat × LayoutStep} (hp : p ∈ l.placed depth) : p.2 ∈ l :=
    map_placed l depth ▸ List.mem_map_of_mem hp
  have hsteps := join_map_inj (fun p hp => step_length_le h hl (hmem hp) p.1) htext
  intro p hp
  obtain ⟨step, hstep, hp⟩ := List.mem_flatMap.mp hp
  cases step with
  | line code =>
    rw [← map_placed l depth] at hstep
    obtain ⟨⟨level, step⟩, hplaced, rfl⟩ := List.mem_map.mp hstep
    have hquoted : .quoted n ∉ code := fun hquoted =>
      hl (List.mem_flatMap.mpr ⟨_, hmem hplaced, List.mem_filter.mpr ⟨hquoted, rfl⟩⟩)
    exact h.code_inj hquoted (LayoutStep.code_text_inj (hsteps _ hplaced)) p
      (List.mem_filter.mp hp).1
  | blank => exact absurd hp List.not_mem_nil
  | indent => exact absurd hp List.not_mem_nil
  | dedent => exact absurd hp List.not_mem_nil

/-- Another identifier for a name shows wherever a layout uses the name, unless a string
literal holds it. -/
theorem text_ne (hothers : ∀ m, m ≠ n → s m = s' m) (hne : s n ≠ s' n) {l : Layout} {use : NameUse}
    (huse : .name use n ∈ l.uses) (hl : .quoted n ∉ l.uses) (depth : Nat) :
    l.text s depth ≠ l.text s' depth := by
  intro htext
  rcases Nat.le_total (s n).length (s' n).length with hle | hle
  · exact hne (text_inj ⟨hothers, hle⟩ hl htext _ huse)
  · exact hne.symm (text_inj ⟨fun m hm => (hothers m hm).symm, hle⟩ hl htext.symm _ huse)

end Layout

end Lowering
