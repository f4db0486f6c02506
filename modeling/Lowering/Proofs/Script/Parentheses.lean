import Lowering.Proofs.Script.Grammar

/-! Where parentheses stand.

Expressions that are the same without parentheses and are written as the same row have their
parentheses in the same places (`Fits.eq_of_bare`). For parentheses add no atoms to a row; two parts of
rows with as many atoms each end at the same place, if what comes next is an atom in both. -/
namespace Lowering.Script

/-! ### Atoms of a row -/

/-- The number of atoms in a row, those between brackets too. -/
def weight (ps : List Phrase) : Nat := atoms (flatten ps)

section
variable {as bs cs ds : List Phrase}

theorem weight_append (ps qs : List Phrase) : weight (ps ++ qs) = weight ps + weight qs := by
  rw [weight, flatten_append, atoms, List.countP_append]
  rfl

@[simp] theorem weight_nil : weight [] = 0 := rfl

@[simp] theorem weight_atom (a : Atom) (ps : List Phrase) : weight (.atom a :: ps) = weight ps + 1 := by
  rw [weight, flatten, Phrase.lexemes, List.cons_append, atoms, List.countP_cons_of_pos rfl]
  rfl

@[simp] theorem weight_group (b : Bracket) (items ps : List Phrase) :
    weight (.group b items :: ps) = weight items + weight ps := by
  simp [weight, flatten, Phrase.lexemes, atoms, Lexeme.isAtom]

/-- The row goes on with an atom, if it goes on. -/
def GoesOn (ps : List Phrase) : Prop := ∀ p ∈ ps.head?, ∃ a, p = .atom a

theorem goesOn_atom (a : Atom) (ps : List Phrase) : GoesOn (.atom a :: ps) := by
  rintro p ⟨⟩
  exact ⟨a, rfl⟩

/-- Of two rows with one weight, none is the other with an atom behind it. -/
theorem append_inj_of_weight (hweight : weight as = weight cs) (hbs : GoesOn bs) (hds : GoesOn ds)
    (h : as ++ bs = cs ++ ds) : as = cs ∧ bs = ds := by
  rcases List.append_eq_append_iff.mp h with ⟨mid, rfl, rfl⟩ | ⟨mid, rfl, rfl⟩
  · cases mid with
    | nil => exact ⟨(List.append_nil _).symm, rfl⟩
    | cons p mid =>
      obtain ⟨a, rfl⟩ := hbs p rfl
      rw [weight_append, weight_atom] at hweight
      omega
  · cases mid with
    | nil => exact ⟨List.append_nil _, rfl⟩
    | cons p mid =>
      obtain ⟨a, rfl⟩ := hds p rfl
      rw [weight_append, weight_atom] at hweight
      omega

end

namespace Form

variable {f g : Form} {fs gs : List Form}

mutual

/-- Parentheses add no atoms. -/
theorem weight_bare (f : Form) : weight f.bare.phrases = weight f.phrases := by
  match f with
  | atom a => rfl
  | array items => simp [bare, phrases, weight_row_bareEach items]
  | paren inner => simp [bare, phrases, weight_bare inner]
  | access receiver name => simp [bare, phrases, weight_append, weight_bare receiver]
  | index receiver place => simp [bare, phrases, weight_append, weight_bare receiver, weight_bare place]
  | call callee args =>
    simp [bare, phrases, weight_append, weight_bare callee, weight_row_bareEach args]
  | new type args =>
    simp [bare, phrases, weight_append, weight_bare type, weight_row_bareEach args]
  | bareNew type => simp [bare, phrases, weight_bare type]
  | unary op operand => simp [bare, phrases, weight_bare operand]
  | binary op left right => simp [bare, phrases, weight_append, weight_bare left, weight_bare right]

theorem weight_tails_bareEach (fs : List Form) : weight (tails (bareEach fs)) = weight (tails fs) := by
  match fs with
  | [] => rfl
  | f :: rest =>
    rw [bareEach, tails_cons, tails_cons, weight_atom, weight_atom, weight_append, weight_append,
      weight_bare f, weight_tails_bareEach rest]

theorem weight_row_bareEach (fs : List Form) :
    weight (commas (phrasesEach (bareEach fs))) = weight (commas (phrasesEach fs)) := by
  match fs with
  | [] => rfl
  | f :: rest =>
    rw [bareEach, commas_phrasesEach_cons, commas_phrasesEach_cons, weight_append, weight_append,
      weight_bare f, weight_tails_bareEach rest]

end

theorem weight_eq_of_bare (h : f.bare = g.bare) : weight f.phrases = weight g.phrases := by
  rw [← weight_bare f, h, weight_bare g]

/-- What is in parentheses as a row is in parentheses. -/
theorem eq_paren_of_phrases {ps : List Phrase} (h : f.phrases = [.group .round ps]) :
    ∃ inner, f = paren inner ∧ inner.phrases = ps := by
  cases f with
  | paren inner => exact ⟨inner, rfl, by simpa [phrases] using h⟩
  | _ => simp [phrases, List.append_eq_cons_iff, phrases_ne_nil] at h

theorem goesOn_tails (fs : List Form) : GoesOn (tails fs) := by
  cases fs with
  | nil => nofun
  | cons f fs => exact goesOn_atom _ _

/-- In a row with commas too. -/
theorem eq_of_bareEach (heach : ∀ f ∈ fs, ∀ g : Form, f.bare = g.bare → f.phrases = g.phrases → f = g)
    (hbare : bareEach fs = bareEach gs) (h : tails fs = tails gs) : fs = gs := by
  induction fs generalizing gs with
  | nil =>
    cases gs with
    | nil => rfl
    | cons => cases h
  | cons f fs ih =>
    cases gs with
    | nil => cases h
    | cons g gs =>
      obtain ⟨hfirst, hrest⟩ := List.cons.inj hbare
      obtain ⟨hhead, hothers⟩ := List.forall_mem_cons.mp heach
      obtain ⟨hphrases, htails⟩ := append_inj_of_weight (weight_eq_of_bare hfirst) (goesOn_tails fs)
        (goesOn_tails gs) (List.cons.inj h).2
      rw [hhead g hfirst hphrases, ih hothers hrest htails]

/-- An expression is told by its row and by what it is without its parentheses. -/
theorem Fits.eq_of_bare (hf : f.Fits) (hbare : f.bare = g.bare) (h : f.phrases = g.phrases) : f = g := by
  induction hf generalizing g with
  | atom =>
    cases g with
    | atom => simpa [phrases] using h
    | paren => obtain ⟨_, ⟨⟩, -⟩ := eq_paren_of_phrases h
    | _ => simp [bare] at hbare
  | array _ _ ih =>
    cases g with
    | array items =>
      have htails : tails _ = tails items := tails_eq_of_commas (by simpa [phrases] using h)
      rw [eq_of_bareEach (fun f hf _ => ih f hf) (Form.array.inj hbare) htails]
    | paren => obtain ⟨_, ⟨⟩, -⟩ := eq_paren_of_phrases h
    | _ => simp [bare] at hbare
  | paren _ ih =>
    obtain ⟨inner, rfl, hphrases⟩ := eq_paren_of_phrases h.symm
    rw [ih (g := inner) hbare hphrases.symm]
  | access _ _ ih =>
    cases g with
    | access receiver name =>
      obtain ⟨hreceiver, rfl⟩ := Form.access.inj hbare
      rw [ih hreceiver (List.append_inj' h rfl).1]
    | paren => obtain ⟨_, ⟨⟩, -⟩ := eq_paren_of_phrases h
    | _ => simp [bare] at hbare
  | index _ _ _ ih ihplace =>
    cases g with
    | index receiver place =>
      obtain ⟨hreceiver, hplace⟩ := Form.index.inj hbare
      obtain ⟨hphrases, hgroup⟩ := List.append_inj' h rfl
      rw [ih hreceiver hphrases, ihplace hplace (by simpa using hgroup)]
    | paren => obtain ⟨_, ⟨⟩, -⟩ := eq_paren_of_phrases h
    | _ => simp [bare] at hbare
  | call _ _ _ _ ih ihargs =>
    cases g with
    | call callee args =>
      obtain ⟨hcallee, hargs⟩ := Form.call.inj hbare
      obtain ⟨hphrases, hgroup⟩ := List.append_inj' h rfl
      have htails : tails _ = tails args := tails_eq_of_commas (by simpa using hgroup)
      rw [ih hcallee hphrases, eq_of_bareEach (fun f hf _ => ihargs f hf) hargs htails]
    | paren => obtain ⟨_, ⟨⟩, -⟩ := eq_paren_of_phrases h
    | _ => simp [bare] at hbare
  | new _ _ _ _ ih ihargs =>
    cases g with
    | new type args =>
      obtain ⟨htype, hargs⟩ := Form.new.inj hbare
      obtain ⟨hphrases, hgroup⟩ := List.append_inj' h rfl
      have htails : tails _ = tails args := tails_eq_of_commas (by simpa using hgroup)
      rw [ih htype (List.cons.inj hphrases).2, eq_of_bareEach (fun f hf _ => ihargs f hf) hargs htails]
    | paren => obtain ⟨_, ⟨⟩, -⟩ := eq_paren_of_phrases h
    | _ => simp [bare] at hbare
  | bareNew _ _ ih =>
    cases g with
    | bareNew type => rw [ih (Form.bareNew.inj hbare) (List.cons.inj h).2]
    | paren => obtain ⟨_, ⟨⟩, -⟩ := eq_paren_of_phrases h
    | _ => simp [bare] at hbare
  | unary _ _ _ ih =>
    cases g with
    | unary op operand =>
      obtain ⟨rfl, hoperand⟩ := Form.unary.inj hbare
      rw [ih hoperand (List.cons.inj h).2]
    | paren => obtain ⟨_, ⟨⟩, -⟩ := eq_paren_of_phrases h
    | _ => simp [bare] at hbare
  | binary _ _ _ _ _ _ ihleft ihright =>
    cases g with
    | binary op left right =>
      obtain ⟨rfl, hleft, hright⟩ := Form.binary.inj hbare
      obtain ⟨hphrases, hrest⟩ :=
        append_inj_of_weight (weight_eq_of_bare hleft) (goesOn_atom _ _) (goesOn_atom _ _) h
      rw [ihleft hleft hphrases, ihright hright (List.cons.inj hrest).2]
    | paren => obtain ⟨_, ⟨⟩, -⟩ := eq_paren_of_phrases h
    | _ => simp [bare] at hbare

end Form

end Lowering.Script
