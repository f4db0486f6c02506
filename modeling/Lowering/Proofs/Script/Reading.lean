import Lowering.Proofs.Script.Scanning

/-! Texts read piece by piece.

A text that is put together from pieces is read piece by piece, as long as no piece runs on into the
next one. What a piece is read as depends on what comes right behind it, and `Reads` says how, for
everything that may come. Where a name comes behind a whole numeral and a point, the pieces run
together (`reads_fused`): then what is read has fewer atoms than the pieces have. -/
namespace Lowering.Script

/-- In front of what may follow, the text is read as the lexemes `ls` if it is `clear`, and else as
fewer atoms, if at all. -/
structure Reads (A : Alphabet) (follows : List Char → Prop) (cs : List Char) (ls : List Lexeme)
    (clear : Prop) : Prop where
  whole {rest : List Char} {after : List Lexeme} :
    clear → follows rest → A.Lexes rest after → A.Lexes (cs ++ rest) (ls ++ after)
  only {rest : List Char} {all : List Lexeme} :
    follows rest → A.Lexes (cs ++ rest) all →
      ∃ own after, all = own ++ after ∧ A.Lexes rest after ∧ (own = ls ∧ clear ∨ atoms own < atoms ls)

/-! ### What follows -/

abbrev Anything (_ : List Char) : Prop := True

/-- What comes behind expressions. -/
def closers : List Char := [' ', ',', ')', ']', '(']

/-- What comes behind an expression: nothing, or something with one of these characters in front. A
point may come behind those that do not end with a whole numeral. -/
def Follows (point : Bool) (rest : List Char) : Prop :=
  ∀ c ∈ rest.head?, c ∈ closers ∨ point = true ∧ c = '.'

section
variable {A : Alphabet} {rest : List Char} {c : Char} {point : Bool}

theorem follows_nil (point : Bool) : Follows point [] := by
  rintro c ⟨⟩

theorem follows_cons (h : c ∈ closers) (point : Bool) (rest : List Char) :
    Follows point (c :: rest) := by
  rintro d ⟨⟩
  exact .inl h

theorem follows_of_false (h : Follows false rest) (point : Bool) : Follows point rest := by
  intro c hc
  exact .inl ((h c hc).resolve_right (by simp))

theorem mem_of_follows (h : Follows point rest) (hc : c ∈ rest.head?) : c ∈ '.' :: closers := by
  rcases h c hc with hc | ⟨-, rfl⟩
  · exact List.mem_cons_of_mem _ hc
  · exact List.mem_cons_self

theorem ends_of_follows (h : Follows point rest) : A.Ends rest := by
  have hnone : ('.' :: closers).all (fun c => c ∈ blanks || Alphabet.isPunctuation c) = true := by decide
  intro c hc
  rcases (Bool.or_eq_true ..).mp (List.all_eq_true.mp hnone c (mem_of_follows h hc)) with
    hblank | hpunctuation
  · exact A.not_blank c (of_decide_eq_true hblank)
  · exact Alphabet.not_part_of_punctuation hpunctuation

end

namespace Reads

variable {A : Alphabet} {follows follows' : List Char → Prop} {cs cs' ds : List Char}
  {ls ls' ms : List Lexeme} {l : Lexeme} {clear clear' : Prop} {point : Bool}

theorem of_eq (h : Reads A follows cs ls clear) (hcs : cs' = cs) (hls : ls' = ls)
    (hclear : clear ↔ clear') : Reads A follows cs' ls' clear' :=
  hcs ▸ hls ▸ propext hclear ▸ h

theorem weaken (h : Reads A follows cs ls clear) (hfollows : ∀ rest, follows' rest → follows rest) :
    Reads A follows' cs ls clear where
  whole hclear hrest := h.whole hclear (hfollows _ hrest)
  only hrest := h.only (hfollows _ hrest)

theorem of_anything (h : Reads A Anything cs ls clear) (point : Bool) :
    Reads A (Follows point) cs ls clear :=
  h.weaken fun _ _ => trivial

theorem of_ends (h : Reads A A.Ends cs ls clear) (point : Bool) : Reads A (Follows point) cs ls clear :=
  h.weaken fun _ hrest => ends_of_follows hrest

/-- Whatever may come behind a text, what closes expressions may. -/
theorem closed (h : Reads A (Follows point) cs ls clear) : Reads A (Follows false) cs ls clear :=
  h.weaken fun _ hrest => follows_of_false hrest point

/-! ### Pieces put together -/

theorem nil : Reads A follows [] [] True where
  whole _ _ hlexes := hlexes
  only _ hlexes := ⟨[], _, rfl, hlexes, .inl ⟨rfl, trivial⟩⟩

theorem blank : Reads A Anything [' '] [] True where
  whole _ _ hlexes := (Alphabet.lexes_blank (by decide)).mpr hlexes
  only _ hlexes := ⟨[], _, rfl, (Alphabet.lexes_blank (by decide)).mp hlexes, .inl ⟨rfl, trivial⟩⟩

theorem lexeme (h : ∀ rest, follows rest → A.next (cs ++ rest) = some (l, rest)) :
    Reads A follows cs [l] True where
  whole _ hrest hlexes := (Alphabet.lexes_next (h _ hrest)).mpr ⟨_, rfl, hlexes⟩
  only hrest hlexes := by
    obtain ⟨after, rfl, hafter⟩ := (Alphabet.lexes_next (h _ hrest)).mp hlexes
    exact ⟨[l], after, rfl, hafter, .inl ⟨rfl, trivial⟩⟩

/-- Two pieces are read one after the other. -/
theorem append (h : Reads A follows cs ls clear) (h' : Reads A follows' ds ms clear')
    (hfollows : ∀ rest, follows' rest → follows (ds ++ rest)) :
    Reads A follows' (cs ++ ds) (ls ++ ms) (clear ∧ clear') where
  whole hclear hrest hlexes := by
    rw [List.append_assoc, List.append_assoc]
    exact h.whole hclear.1 (hfollows _ hrest) (h'.whole hclear.2 hrest hlexes)
  only hrest hlexes := by
    rw [List.append_assoc] at hlexes
    obtain ⟨own, after, rfl, hafter, hown⟩ := h.only (hfollows _ hrest) hlexes
    obtain ⟨own', after', rfl, hafter', hown'⟩ := h'.only hrest hafter
    refine ⟨own ++ own', after', (List.append_assoc ..).symm, hafter', ?_⟩
    rw [atoms, atoms, List.countP_append, List.countP_append]
    rcases hown with ⟨rfl, hclear⟩ | hless <;> rcases hown' with ⟨rfl, hclear'⟩ | hless'
    · exact .inl ⟨rfl, hclear, hclear'⟩
    · exact .inr (Nat.add_lt_add_left hless' _)
    · exact .inr (Nat.add_lt_add_right hless _)
    · exact .inr (Nat.add_lt_add hless hless')

/-! ### Whole texts -/

theorem lexes (h : Reads A (Follows point) cs ls clear) (hclear : clear) : A.Lexes cs ls := by
  have hwhole : A.Lexes (cs ++ []) (ls ++ []) := h.whole hclear (follows_nil point) (.done rfl)
  rwa [List.append_nil, List.append_nil] at hwhole

/-- What a text is read as has fewer atoms, or is what it is put together from. -/
theorem clear_of_lexes {all : List Lexeme} (h : Reads A (Follows point) cs ls clear)
    (hall : A.Lexes cs all) (hatoms : atoms all = atoms ls) : clear ∧ all = ls := by
  rw [← List.append_nil cs] at hall
  obtain ⟨own, after, rfl, hafter, hown⟩ := h.only (follows_nil point) hall
  obtain rfl := Alphabet.lexes_nil.mp hafter
  rw [List.append_nil] at hatoms ⊢
  rcases hown with ⟨rfl, hclear⟩ | hless
  · exact ⟨hclear, rfl⟩
  · omega

end Reads

section
variable {A : Alphabet}

/-! ### Atoms -/

theorem reads_word {name : String} (h : A.IsName name.toList) :
    Reads A A.Ends name.toList [.atom (.word name)] True := by
  refine .lexeme fun rest hrest => ?_
  rw [Alphabet.next_word h hrest, String.ofList_toList]

/-- A word that is one in every alphabet. -/
theorem reads_ascii (name : String) (h : Alphabet.isAsciiName name.toList = true) :
    Reads A A.Ends name.toList [.atom (.word name)] True :=
  reads_word (Alphabet.isName_of_ascii h)

theorem reads_string (s : String) : Reads A Anything (Text.quote s).toList [.atom (.string s)] True :=
  .lexeme fun rest _ => Alphabet.next_string s rest

theorem reads_number {whole part : List Char} (h : Alphabet.IsDecimal whole part) :
    Reads A (Follows !part.isEmpty) (whole ++ part) [.atom (.number (String.ofList (whole ++ part)))]
      True := by
  refine .lexeme fun rest hrest => Alphabet.next_number h (ends_of_follows hrest) fun hpart hpoint => ?_
  subst hpart
  simpa [closers] using hrest '.' hpoint

theorem reads_minus : Reads A (∃ c ∈ ·.head?, A.isPart c = true) ['-'] [.atom (.mark "-")] True :=
  .lexeme fun _ hrest => Alphabet.next_minus hrest

/-- Behind a whole numeral and a point a name goes on the numeral, or cannot be read. -/
theorem reads_fused {whole : List Char} {name : String} (hwhole : Alphabet.IsDecimal whole [])
    (hname : A.IsName name.toList) :
    Reads A (Follows true) (whole ++ '.' :: name.toList)
      [.atom (.number (String.ofList whole)), .atom (.mark "."), .atom (.word name)] False where
  whole := False.elim
  only {rest all} hrest hall := by
    have hsigns : ∀ c ∈ '.' :: closers, c ≠ '+' ∧ c ≠ '-' := by simp [closers]
    have hsign : ∀ c ∈ (name.toList.tail ++ rest).head?, c ≠ '+' ∧ c ≠ '-' := by
      intro c hc
      cases hrun : name.toList.tail with
      | nil =>
        rw [hrun] at hc
        exact hsigns c (mem_of_follows hrest hc)
      | cons d run =>
        rw [hrun] at hc
        obtain rfl := Option.some.inj hc
        have hpart : A.isPart d = true :=
          Alphabet.isPart_of_isName hname d (List.mem_of_mem_tail (hrun ▸ List.mem_cons_self))
        exact ⟨(Alphabet.ne_of_part hpart rfl).symm, (Alphabet.ne_of_part hpart rfl).symm⟩
    obtain ⟨d, digits, rfl⟩ := List.exists_cons_of_ne_nil hwhole.unpadded.1
    have hdigit : d.isDigit = true := hwhole.digits d List.mem_cons_self
    rw [List.append_assoc, List.cons_append] at hall
    have hblank : d ∉ blanks := Alphabet.not_blank_of_part (A := A) (Alphabet.part_of_digit hdigit)
    have hnext : A.next (d :: (digits ++ '.' :: (name.toList ++ rest))) = _ :=
      Alphabet.next_of_digit hdigit
    cases hnumeral : A.numeral? (d :: (digits ++ '.' :: (name.toList ++ rest))) with
    | none =>
      rw [hnumeral] at hnext
      exact (Alphabet.not_lexes hnext hblank hall).elim
    | some found =>
      obtain ⟨text, after⟩ := found
      obtain rfl := Alphabet.numeral?_name hwhole hname (ends_of_follows hrest) hsign hnumeral
      rw [hnumeral] at hnext
      obtain ⟨ls, rfl, hls⟩ := (Alphabet.lexes_next hnext).mp hall
      exact ⟨[_], ls, rfl, hls, .inr (show 1 < 3 by decide)⟩

/-! ### Expressions -/

variable {cs ds : List Char} {f g : Form} {ps : List Phrase} {clear clear' : Prop}

/-- An expression and a name behind a point. -/
theorem reads_access {name : String} (h : Reads A (Follows true) cs (flatten f.phrases) clear)
    (hname : A.IsName name.toList) :
    Reads A A.Ends (cs ++ '.' :: name.toList) (flatten (f.access name).phrases) clear := by
  have hpoint : Reads A (∃ c ∈ ·.head?, A.isStart c = true) ['.'] [.atom (.mark ".")] True :=
    .lexeme fun _ hrest => Alphabet.next_point hrest
  have hmember := hpoint.append (reads_word hname) fun rest _ => by
    cases hchars : name.toList with
    | nil =>
      rw [hchars] at hname
      exact hname.elim
    | cons c run =>
      rw [hchars] at hname
      exact ⟨c, rfl, hname.1⟩
  refine (h.append hmember fun rest _ => ?_).of_eq rfl ?_ (by simp)
  · rintro c ⟨⟩
    exact .inr ⟨rfl, rfl⟩
  · rw [Form.phrases, flatten_append]
    rfl

/-- Two expressions and an operator between them, with blanks around it. -/
theorem reads_binary {op : String} {o : Operator} (hop : operator? op = some o)
    (hleft : Reads A (Follows false) cs (flatten f.phrases) clear)
    (hright : Reads A (Follows false) ds (flatten g.phrases) clear') :
    Reads A (Follows false) (cs ++ ' ' :: (op.toList ++ ' ' :: ds)) (flatten (f.binary op g).phrases)
      (clear ∧ clear') := by
  have hmark : Reads A (·.head? = some ' ') op.toList [.atom (operatorAtom op)] True := by
    refine .lexeme fun rest hrest => ?_
    obtain ⟨rest, rfl⟩ := List.head?_eq_some_iff.mp hrest
    exact Alphabet.next_operator hop rest
  have hoperand := Reads.blank.append hright fun _ _ => trivial
  have hoperator := hmark.append hoperand fun _ _ => rfl
  have hspaced := Reads.blank.append hoperator fun _ _ => trivial
  refine (hleft.append hspaced fun _ _ => follows_cons (by decide) false _).of_eq rfl ?_ (by simp)
  rw [Form.phrases, flatten_append]
  rfl

def Bracket.left : Bracket → Char
  | round => '('
  | square => '['
  | curly => '\x7b'

def Bracket.right : Bracket → Char
  | round => ')'
  | square => ']'
  | curly => '\x7d'

/-- What stands between two brackets, and the brackets. -/
theorem reads_group (b : Bracket) (hright : b.right ∈ closers)
    (h : Reads A (Follows false) cs (flatten ps) clear) :
    Reads A Anything (b.left :: (cs ++ [b.right])) (flatten [.group b ps]) clear := by
  have hopening : Reads A Anything [b.left] [.opening b] True := by
    refine .lexeme fun rest _ => ?_
    cases b <;> exact Alphabet.next_bracket rfl rfl (by decide) rest
  have hclosing : Reads A Anything [b.right] [.closing b] True := by
    refine .lexeme fun rest _ => ?_
    cases b <;> exact Alphabet.next_bracket rfl rfl (by decide) rest
  have hinner := h.append hclosing fun rest _ => follows_cons hright false rest
  refine (hopening.append hinner fun _ _ => trivial).of_eq rfl ?_ (by simp)
  simp [flatten, Phrase.lexemes]

/-- An expression and what stands between parentheses behind it. -/
theorem reads_applied (h : Reads A (Follows false) cs (flatten f.phrases) clear)
    (hargs : Reads A (Follows false) ds (flatten ps) clear') :
    Reads A Anything (cs ++ '(' :: (ds ++ [')'])) (flatten (f.phrases ++ [.group .round ps]))
      (clear ∧ clear') :=
  (h.append (reads_group .round (by decide) hargs) fun _ _ => follows_cons (by decide) _ _).of_eq rfl
    (flatten_append _ _) Iff.rfl

theorem commas_cons_cons (row row' : List Phrase) (rows : List (List Phrase)) :
    commas (row :: row' :: rows) = row ++ .atom (.mark ",") :: commas (row' :: rows) := rfl

/-- Expressions with commas and blanks between them. -/
theorem reads_row {α : Type} {text : α → List Char} {row : α → List Phrase} {clear : α → Prop}
    {items : List α} (h : ∀ a ∈ items, Reads A (Follows false) (text a) (flatten (row a)) (clear a)) :
    Reads A (Follows false) (List.intercalate [',', ' '] (items.map text))
      (flatten (commas (items.map row))) (∀ a ∈ items, clear a) := by
  match items with
  | [] => exact Reads.nil.of_eq rfl rfl (by simp)
  | [a] =>
    refine (h a List.mem_cons_self).of_eq ?_ ?_ (by simp)
    · simp
    · simp [commas]
  | a :: b :: rest =>
    obtain ⟨ha, hrest⟩ := List.forall_mem_cons.mp h
    have hmark : Reads A Anything [','] [.atom (.mark ",")] True :=
      .lexeme fun rest _ => Alphabet.next_comma rest
    have hcomma := hmark.append .blank fun _ _ => trivial
    have htail := hcomma.append (reads_row hrest) fun _ _ => trivial
    refine (ha.append htail fun rest _ => follows_cons (by decide) false _).of_eq ?_ ?_ ?_
    · rw [List.map_cons, List.map_cons, List.intercalate_cons_cons, List.append_assoc]
      rfl
    · rw [List.map_cons, List.map_cons, commas_cons_cons, flatten_append]
      rfl
    · rw [List.forall_mem_cons]
      simp

end

end Lowering.Script
