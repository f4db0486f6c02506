import Lowering.Proofs.Script.Grammar

/-! Expressions are read in one way.

A row of phrases is gone along from the left, and from the phrases so far it is known whether an
expression starts, has ended, or waits for a name behind a point (`Spot`). An operator behind an
ended expression has its level at most from the whole (`exists_operator_of_crosses`); where two
readings would split a row at different operators, each of the two would have to be at the side of
the other, which no pair of operators allows. What is left is told by its first phrase, by its last
one, and by how many `new` are still without their arguments (`tally`). So a row tells the form of
the expression that it is read as (`Fits.kindOf_phrases`), and by induction the expression (`Fits.unique`). -/
namespace Lowering.Script

/-! ### The table of operators -/

theorem operatorAtom_ne_point : ∀ o ∈ operators, operatorAtom o.symbol ≠ .mark "." := by decide

theorem sides_le_own : ∀ o ∈ operators, o.left ≤ o.own ∧ o.right ≤ o.own := by decide

theorem not_own_le_unary : ∀ o ∈ operators, ¬o.own ≤ .unary := by decide

/-- Of two operators in a row, one at most takes the other at its side. -/
theorem not_both_sides : ∀ o ∈ operators, ∀ o' ∈ operators, ¬(o.own ≤ o'.left ∧ o'.own ≤ o.right) := by
  decide

theorem operatorAtom_inj {op op' : String} (h : operatorAtom op = operatorAtom op') : op = op' := by
  unfold operatorAtom at h
  split at h <;> split at h <;> injection h

/-! ### Going along a row -/

/-- The atoms that an expression goes on behind. -/
def leading : List Atom := .word "new" :: unaryOperators.map operatorAtom

theorem not_leading_of_operand {a : Atom} (h : a.isOperand = true) : a ∉ leading := by
  intro hleading
  have hnone : ∀ a ∈ leading, a.isOperand = false := by decide
  rw [hnone a hleading] at h
  cases h

/-- What the phrases so far leave to come. -/
inductive Spot where
  /-- An expression. -/
  | start
  /-- Nothing: an expression has ended. -/
  | done
  /-- A name. -/
  | point
deriving DecidableEq

namespace Spot

def next : Spot → Phrase → Spot
  | start, .atom a => if a ∈ leading then start else done
  | done, .atom a => if a = .mark "." then point else start
  | _, _ => done

def after (s : Spot) (ps : List Phrase) : Spot := ps.foldl next s

@[simp] theorem after_nil (s : Spot) : s.after [] = s := rfl

@[simp] theorem after_cons (s : Spot) (p : Phrase) (ps : List Phrase) :
    s.after (p :: ps) = (s.next p).after ps := rfl

@[simp] theorem after_append (s : Spot) (ps qs : List Phrase) :
    s.after (ps ++ qs) = (s.after ps).after qs :=
  List.foldl_append

@[simp] theorem next_group (s : Spot) (b : Bracket) (items : List Phrase) :
    s.next (.group b items) = done := by
  cases s <;> rfl

@[simp] theorem next_mark_point : done.next (.atom (.mark ".")) = point := rfl

@[simp] theorem next_name (name : String) : point.next (.atom (.word name)) = done := rfl

@[simp] theorem next_new : start.next (.atom (.word "new")) = start := rfl

theorem next_operand {a : Atom} (h : a.isOperand = true) : start.next (.atom a) = done :=
  if_neg (not_leading_of_operand h)

theorem next_unary {op : String} (h : op ∈ unaryOperators) :
    start.next (.atom (operatorAtom op)) = start :=
  if_pos (List.mem_cons_of_mem _ (List.mem_map_of_mem h))

theorem next_operator {op : String} {o : Operator} (h : operator? op = some o) :
    done.next (.atom (operatorAtom op)) = start := by
  obtain ⟨ho, rfl⟩ := of_operator? h
  exact if_neg (operatorAtom_ne_point o ho)

end Spot

/-- Whether the phrase is an atom of the kind and comes when an expression has ended. -/
def Spot.crosses (p : Atom → Bool) : Spot → Phrase → Bool
  | done, .atom a => p a
  | _, _ => false

/-- Whether such an atom stands in the row. -/
def crosses (p : Atom → Bool) : Spot → List Phrase → Bool
  | _, [] => false
  | s, phrase :: rest => s.crosses p phrase || crosses p (s.next phrase) rest

/-- A `new` wants arguments, and arguments behind an expression are wanted or not. -/
def Spot.debt : Spot → Phrase → Int
  | start, .atom a => if a = .word "new" then 1 else 0
  | done, .group .round _ => -1
  | _, _ => 0

/-- How many `new` the row has more than arguments. -/
def tally : Spot → List Phrase → Int
  | _, [] => 0
  | s, phrase :: rest => s.debt phrase + tally (s.next phrase) rest

section
variable {p : Atom → Bool} {s : Spot} {ps qs : List Phrase}

@[simp] theorem Spot.crosses_start (phrase : Phrase) : start.crosses p phrase = false := by
  cases phrase <;> rfl

@[simp] theorem Spot.crosses_done (a : Atom) : done.crosses p (.atom a) = p a := rfl

@[simp] theorem Spot.crosses_point (phrase : Phrase) : point.crosses p phrase = false := by
  cases phrase <;> rfl

@[simp] theorem Spot.crosses_group (b : Bracket) (items : List Phrase) :
    s.crosses p (.group b items) = false := by
  cases s <;> rfl

@[simp] theorem crosses_nil : crosses p s [] = false := rfl

@[simp] theorem crosses_cons (phrase : Phrase) :
    crosses p s (phrase :: ps) = (s.crosses p phrase || crosses p (s.next phrase) ps) := rfl

theorem crosses_append : crosses p s (ps ++ qs) = (crosses p s ps || crosses p (s.after ps) qs) := by
  induction ps generalizing s with
  | nil => rfl
  | cons phrase ps ih => rw [List.cons_append, crosses, ih, crosses, Spot.after_cons, Bool.or_assoc]

theorem tally_append : tally s (ps ++ qs) = tally s ps + tally (s.after ps) qs := by
  induction ps generalizing s with
  | nil => exact (Int.zero_add _).symm
  | cons phrase ps ih => rw [List.cons_append, tally, ih, tally, Spot.after_cons, Int.add_assoc]

end

/-! ### Rows of expressions -/

namespace Form

variable {f g : Form} {p : Atom → Bool} {op : String} {o : Operator} {fs gs : List Form}

/-- Behind an expression an expression has ended. -/
theorem Fits.after_phrases (h : f.Fits) : Spot.start.after f.phrases = .done := by
  induction h with
  | atom h => simp [phrases, Spot.next_operand h]
  | array => simp [phrases]
  | paren => simp [phrases]
  | access _ _ ih => simp [phrases, ih]
  | index _ _ _ ih => simp [phrases, ih]
  | call _ _ _ _ ih => simp [phrases, ih]
  | new _ _ _ _ ih => simp [phrases, ih]
  | bareNew _ _ ih => simp [phrases, ih]
  | unary hop _ _ ih => simp [phrases, Spot.next_unary hop, ih]
  | binary hop _ _ _ _ _ ihleft ihright => simp [phrases, Spot.next_operator hop, ihleft, ihright]

/-- An operator that stands behind an ended expression has at most the level of the whole. -/
theorem Fits.exists_operator_of_crosses (h : f.Fits) (hpoint : p (.mark ".") = false)
    (hcross : crosses p .start f.phrases = true) :
    ∃ o ∈ operators, p (operatorAtom o.symbol) = true ∧ o.own ≤ f.level := by
  induction h with
  | atom => simp [phrases] at hcross
  | array => simp [phrases] at hcross
  | paren => simp [phrases] at hcross
  | access h _ ih => exact ih (by simpa [phrases, crosses_append, h.after_phrases, hpoint] using hcross)
  | index h _ _ ih => exact ih (by simpa [phrases, crosses_append, h.after_phrases] using hcross)
  | call h hlevel _ _ ih =>
    obtain ⟨o, ho, hp, hle⟩ := ih (by simpa [phrases, crosses_append, h.after_phrases] using hcross)
    exact ⟨o, ho, hp, Level.le_trans hle hlevel⟩
  | new h hlevel _ _ ih =>
    obtain ⟨o, ho, hp, hle⟩ := ih (by simpa [phrases, crosses_append, h.after_phrases] using hcross)
    exact ⟨o, ho, hp, Level.le_trans hle hlevel⟩
  | bareNew _ hlevel ih =>
    obtain ⟨o, ho, hp, hle⟩ := ih (by simpa [phrases] using hcross)
    exact ⟨o, ho, hp, Level.le_trans hle hlevel⟩
  | unary hop _ hlevel ih =>
    obtain ⟨o, ho, hp, hle⟩ := ih (by simpa [phrases, Spot.next_unary hop] using hcross)
    exact ⟨o, ho, hp, Level.le_trans hle hlevel⟩
  | @binary op left right o hop hleft _ hleftLevel hrightLevel _ ihleft ihright =>
    obtain ⟨ho, rfl⟩ := of_operator? hop
    obtain ⟨hsideLeft, hsideRight⟩ := sides_le_own o ho
    have hparts : crosses p .start left.phrases = true ∨ p (operatorAtom o.symbol) = true ∨
        crosses p .start right.phrases = true := by
      simpa [phrases, crosses_append, hleft.after_phrases, Spot.next_operator hop] using hcross
    rw [level_binary hop]
    rcases hparts with hcross | hp | hcross
    · obtain ⟨o', ho', hp, hle⟩ := ihleft hcross
      exact ⟨o', ho', hp, Level.le_trans (Level.le_trans hle hleftLevel) hsideLeft⟩
    · exact ⟨o, ho, hp, Level.le_refl _⟩
    · obtain ⟨o', ho', hp, hle⟩ := ihright hcross
      exact ⟨o', ho', hp, Level.le_trans (Level.le_trans hle hrightLevel) hsideRight⟩

/-- The operator with this atom, in particular. -/
theorem Fits.own_le_level (h : f.Fits) (hop : operator? op = some o)
    (hcross : crosses (· = operatorAtom op) .start f.phrases = true) : o.own ≤ f.level := by
  obtain ⟨ho, rfl⟩ := of_operator? hop
  have hpoint : decide (Atom.mark "." = operatorAtom o.symbol) = false :=
    decide_eq_false (operatorAtom_ne_point o ho).symm
  obtain ⟨o', ho', heq, hle⟩ := h.exists_operator_of_crosses hpoint hcross
  have hsame := operator?_symbol o' ho'
  rw [operatorAtom_inj (of_decide_eq_true heq), hop] at hsame
  exact Option.some.inj hsame ▸ hle

/-- No operator stands between the parts of what binds closely. -/
theorem Fits.not_crosses (h : f.Fits) (hlevel : f.level ≤ .unary) (hpoint : p (.mark ".") = false) :
    crosses p .start f.phrases = false := by
  cases hcross : crosses p .start f.phrases with
  | false => rfl
  | true =>
    obtain ⟨o, ho, -, hle⟩ := h.exists_operator_of_crosses hpoint hcross
    exact absurd (Level.le_trans hle hlevel) (not_own_le_unary o ho)

end Form

/-! ### The kind of an expression -/

namespace Level

theorem le_member {l : Level} (h : l ≤ member) : l = member := by
  revert h
  cases l <;> decide

theorem le_call {l : Level} (h : l ≤ call) : l = member ∨ l = call := by
  revert h
  cases l <;> decide

theorem le_new {l : Level} (h : l ≤ new) : l = member ∨ l = new := by
  revert h
  cases l <;> decide

/-- How many `new` an expression of the level has more than arguments. -/
def Owes : Level → Int → Prop
  | member, n => n = 0
  | call, n => n < 0
  | new, n => 0 < n
  | _, _ => True

end Level

/-- Whether an operator in front can start with the phrase. -/
def Phrase.isUnary : Phrase → Bool
  | .atom a => a ∈ unaryOperators.map operatorAtom
  | .group _ _ => false

inductive Kind where
  | atom
  | array
  | paren
  | access
  | index
  | call
  | new
  | bareNew
  | unary
  | binary

/-- The kind of a row that ends with arguments, an index or a name, or is a single phrase. -/
def lastKind (ps : List Phrase) : Kind :=
  match ps.getLast? with
  | some (.group .square _) => if ps.length = 1 then .array else .index
  | some (.group _ _) => if ps.length = 1 then .paren else if tally .start ps < 0 then .call else .new
  | _ => if ps.length = 1 then .atom else .access

/-- The kind of the expression that a row is. -/
def kindOf (ps : List Phrase) : Kind :=
  if crosses (· ≠ .mark ".") .start ps then .binary
  else if ps.head?.any Phrase.isUnary then .unary
  else if 0 < tally .start ps then .bareNew
  else lastKind ps

namespace Form

variable {f g : Form}

def kind : Form → Kind
  | atom _ => .atom
  | array _ => .array
  | paren _ => .paren
  | access _ _ => .access
  | index _ _ => .index
  | call _ _ => .call
  | new _ _ => .new
  | bareNew _ => .bareNew
  | unary _ _ => .unary
  | binary _ _ _ => .binary

/-- What binds closely starts with no operator. -/
theorem Fits.head_not_unary (h : f.Fits) (hlevel : f.level ≤ .leftHand) :
    f.phrases.head?.any Phrase.isUnary = false := by
  induction h with
  | @atom a h =>
    have hleading := not_leading_of_operand h
    rw [leading, List.mem_cons, not_or] at hleading
    simpa [phrases, Phrase.isUnary] using hleading.2
  | array => rfl
  | paren => rfl
  | access _ _ ih => rw [phrases, head?_append_of_ne_nil (phrases_ne_nil _), ih hlevel]
  | index _ _ _ ih => rw [phrases, head?_append_of_ne_nil (phrases_ne_nil _), ih hlevel]
  | call _ hcall _ _ ih =>
    rw [phrases, head?_append_of_ne_nil (phrases_ne_nil _), ih (Level.le_trans hcall hlevel)]
  | new => rfl
  | bareNew => rfl
  | unary =>
    rw [level] at hlevel
    exact absurd hlevel (by decide)
  | binary hop =>
    rw [level_binary hop] at hlevel
    exact absurd (Level.le_trans hlevel (by decide)) (not_own_le_unary _ (of_operator? hop).1)

/-- An expression of a level has as many `new` more than arguments as the level tells. -/
theorem Fits.owes (h : f.Fits) : f.level.Owes (tally .start f.phrases) := by
  induction h with
  | @atom a h =>
    have hnew : a ≠ .word "new" := by
      rintro rfl
      exact not_leading_of_operand h List.mem_cons_self
    simp [level, Level.Owes, phrases, tally, Spot.debt, hnew]
  | array => rfl
  | paren => rfl
  | access h _ ih => simpa [level, phrases, tally_append, h.after_phrases, tally, Spot.debt] using ih
  | index h _ _ ih => simpa [level, phrases, tally_append, h.after_phrases, tally, Spot.debt] using ih
  | @call callee args h hlevel _ _ ih =>
    have htally : tally .start callee.phrases ≤ 0 := by
      rcases Level.le_call hlevel with hl | hl
      · rw [hl] at ih
        exact Int.le_of_eq ih
      · rw [hl] at ih
        exact Int.le_of_lt ih
    simp only [level, Level.Owes, phrases, tally_append, h.after_phrases, tally, Spot.debt]
    omega
  | @new type args h hlevel _ _ ih =>
    rw [Level.le_member hlevel] at ih
    have htally : tally .start type.phrases = 0 := ih
    simp [level, Level.Owes, phrases, tally_append, h.after_phrases, tally, Spot.debt, htally]
  | @bareNew type _ hlevel ih =>
    have htally : 0 ≤ tally .start type.phrases := by
      rcases Level.le_new hlevel with hl | hl
      · rw [hl] at ih
        exact Int.le_of_eq ih.symm
      · rw [hl] at ih
        exact Int.le_of_lt ih
    simp only [level, Level.Owes, phrases, tally, Spot.debt, Spot.next_new, if_true]
    omega
  | unary => trivial
  | binary hop =>
    have hnone : ∀ o ∈ operators, o.own ≠ .member ∧ o.own ≠ .call ∧ o.own ≠ .new := by decide
    obtain ⟨hmember, hcall, hnew⟩ := hnone _ (of_operator? hop).1
    rw [level_binary hop]
    unfold Level.Owes
    split
    · exact absurd ‹_› hmember
    · exact absurd ‹_› hcall
    · exact absurd ‹_› hnew
    · trivial

/-- Where no arguments are owed, the last phrase tells. -/
theorem Fits.kindOf_eq_lastKind (h : f.Fits) (hlevel : f.level ≤ .call) :
    kindOf f.phrases = lastKind f.phrases := by
  have htally : ¬0 < tally .start f.phrases := by
    have howes := h.owes
    rcases Level.le_call hlevel with hl | hl
    · rw [hl] at howes
      exact Int.not_lt.mpr (Int.le_of_eq howes)
    · rw [hl] at howes
      exact Int.not_lt.mpr (Int.le_of_lt howes)
  have hhead := h.head_not_unary (Level.le_trans hlevel (by decide))
  have hcross := h.not_crosses (Level.le_trans hlevel (by decide)) (p := (· ≠ .mark ".")) rfl
  rw [kindOf, hcross, hhead, if_neg Bool.false_ne_true, if_neg Bool.false_ne_true, if_neg htally]

/-- The row of an expression tells its kind. -/
theorem Fits.kindOf_phrases (h : f.Fits) : kindOf f.phrases = f.kind := by
  have hfits := h
  cases h with
  | atom => exact hfits.kindOf_eq_lastKind (Level.member_le _)
  | array => exact hfits.kindOf_eq_lastKind (Level.member_le _)
  | paren => exact hfits.kindOf_eq_lastKind (Level.member_le _)
  | access h hlevel =>
    rw [hfits.kindOf_eq_lastKind hlevel]
    simp [lastKind, phrases, kind]
  | index h hlevel =>
    rw [hfits.kindOf_eq_lastKind hlevel]
    simp [lastKind, phrases, kind, phrases_ne_nil]
  | @call callee args h =>
    have htally : tally .start (Form.call callee args).phrases < 0 := hfits.owes
    rw [phrases] at htally
    rw [hfits.kindOf_eq_lastKind (Level.le_refl _)]
    simp [lastKind, phrases, kind, phrases_ne_nil, htally]
  | @new type args h =>
    have htally : ¬tally .start (Form.new type args).phrases < 0 :=
      Int.not_lt.mpr (Int.le_of_eq hfits.owes.symm)
    have hlength : ¬(Form.new type args).phrases.length = 1 := by simp [phrases]
    rw [hfits.kindOf_eq_lastKind (Level.member_le _), lastKind, if_neg hlength, if_neg hlength,
      if_neg hlength, if_neg htally, phrases, List.getLast?_concat]
    rfl
  | @bareNew type =>
    have hlevel : (Form.bareNew type).level ≤ .leftHand := show Level.new ≤ .leftHand by decide
    have htally : 0 < tally .start (Form.bareNew type).phrases := hfits.owes
    have hcross := hfits.not_crosses (Level.le_trans hlevel (by decide)) (p := (· ≠ .mark ".")) rfl
    rw [kindOf, hcross, hfits.head_not_unary hlevel, if_neg Bool.false_ne_true,
      if_neg Bool.false_ne_true, if_pos htally]
    rfl
  | @unary op operand hop =>
    have hcross := hfits.not_crosses (Level.le_refl _) (p := (· ≠ .mark ".")) rfl
    have hhead : (Form.unary op operand).phrases.head?.any Phrase.isUnary = true :=
      decide_eq_true (List.mem_map_of_mem hop)
    rw [kindOf, hcross, hhead, if_neg Bool.false_ne_true, if_pos rfl]
    rfl
  | @binary op left right o hop hleft =>
    obtain ⟨ho, rfl⟩ := of_operator? hop
    have hcross : crosses (· ≠ .mark ".") .start (Form.binary o.symbol left right).phrases = true := by
      simp [phrases, crosses_append, hleft.after_phrases, operatorAtom_ne_point o ho]
    rw [kindOf, if_pos hcross]
    rfl

/-! ### One expression for a row -/

/-- Two ways to cut a list are the same, or one part of the first goes on into the other. -/
theorem append_eq_append_cases {α : Type} {as bs cs ds : List α} (h : as ++ bs = cs ++ ds) :
    (as = cs ∧ bs = ds) ∨ (∃ x mid, cs = as ++ x :: mid ∧ bs = x :: mid ++ ds) ∨
      ∃ x mid, as = cs ++ x :: mid ∧ ds = x :: mid ++ bs := by
  rcases List.append_eq_append_iff.mp h with ⟨mid, rfl, rfl⟩ | ⟨mid, rfl, rfl⟩
  · cases mid with
    | nil => exact .inl ⟨(List.append_nil _).symm, rfl⟩
    | cons x mid => exact .inr (.inl ⟨x, mid, rfl, rfl⟩)
  · cases mid with
    | nil => exact .inl ⟨List.append_nil _, rfl⟩
    | cons x mid => exact .inr (.inr ⟨x, mid, rfl, rfl⟩)

/-- An operator behind an expression is one that stands in the whole. -/
theorem Fits.crosses_operator (h : f.Fits) (op : String) (ps : List Phrase) :
    crosses (· = operatorAtom op) .start (f.phrases ++ .atom (operatorAtom op) :: ps) = true := by
  simp [crosses_append, h.after_phrases]

/-- A row is not split at two operators. -/
theorem Fits.not_split_twice {left left' right : Form} {op op' : String} {o o' : Operator}
    {mid ps : List Phrase} (hop : operator? op = some o) (hop' : operator? op' = some o')
    (hleft : left.Fits) (hleft' : left'.Fits) (hright : right.Fits) (hrightLevel : right.level ≤ o.right)
    (hleftLevel' : left'.level ≤ o'.left)
    (hsplitLeft : left'.phrases = left.phrases ++ .atom (operatorAtom op) :: mid)
    (hsplitRight : right.phrases = mid ++ .atom (operatorAtom op') :: ps) : False := by
  have hcross := hleft.crosses_operator op mid
  rw [← hsplitLeft] at hcross
  have hmid : Spot.start.after mid = .done := by
    have hafter := hleft'.after_phrases
    rwa [hsplitLeft, Spot.after_append, hleft.after_phrases, Spot.after_cons,
      Spot.next_operator hop] at hafter
  have hcross' : crosses (· = operatorAtom op') .start right.phrases = true := by
    simp [hsplitRight, crosses_append, hmid]
  exact not_both_sides o (of_operator? hop).1 o' (of_operator? hop').1
    ⟨Level.le_trans (hleft'.own_le_level hop hcross) hleftLevel',
      Level.le_trans (hright.own_le_level hop' hcross') hrightLevel⟩

theorem not_comma (h : f.Fits) (hlevel : f.level ≤ .assignment) (hg : g.Fits) (ps : List Phrase) :
    f.phrases ≠ g.phrases ++ .atom (.mark ",") :: ps := by
  intro hphrases
  have hcross := hg.crosses_operator "," ps
  rw [show operatorAtom "," = .mark "," from rfl, ← hphrases] at hcross
  have hop : operator? "," = some ⟨",", .sequence, .sequence, .assignment⟩ := rfl
  exact absurd (Level.le_trans (h.own_le_level hop hcross) hlevel) (by decide)

/-- Where expressions stand in a row with commas between them, each ends at its comma. -/
theorem append_tails_inj {fs gs : List Form} (hf : f.Fits) (hflevel : f.level ≤ .assignment) (hg : g.Fits)
    (hglevel : g.level ≤ .assignment) (h : f.phrases ++ tails fs = g.phrases ++ tails gs) :
    f.phrases = g.phrases ∧ tails fs = tails gs := by
  have hcomma {hs : List Form} {x : Phrase} {ps : List Phrase} (htails : tails hs = x :: ps) :
      x = .atom (.mark ",") := by
    cases hs with
    | nil => cases htails
    | cons => exact (List.cons.inj htails).1.symm
  rcases append_eq_append_cases h with hsame | ⟨x, mid, hphrases, htails⟩ | ⟨x, mid, hphrases, htails⟩
  · exact hsame
  · rw [hcomma htails] at hphrases
    exact absurd hphrases (not_comma hg hglevel hf mid)
  · rw [hcomma htails] at hphrases
    exact absurd hphrases (not_comma hf hflevel hg mid)

section
variable {fs gs : List Form} (hfs : ∀ f ∈ fs, f.Fits) (hfsLevel : ∀ f ∈ fs, f.level ≤ .assignment)
  (hgs : ∀ g ∈ gs, g.Fits) (hgsLevel : ∀ g ∈ gs, g.level ≤ .assignment)
  (heach : ∀ f ∈ fs, ∀ g : Form, g.Fits → f.phrases = g.phrases → f = g)
include hfs hfsLevel hgs hgsLevel heach

theorem tails_inj (h : tails fs = tails gs) : fs = gs := by
  induction fs generalizing gs with
  | nil =>
    cases gs with
    | nil => rfl
    | cons => cases h
  | cons f fs ih =>
    cases gs with
    | nil => cases h
    | cons g gs =>
      rw [List.forall_mem_cons] at hfs hfsLevel hgs hgsLevel heach
      obtain ⟨hphrases, htails⟩ :=
        append_tails_inj hfs.1 hfsLevel.1 hgs.1 hgsLevel.1 (List.cons.inj h).2
      rw [heach.1 g hgs.1 hphrases, ih hfs.2 hfsLevel.2 hgs.2 hgsLevel.2 heach.2 htails]

/-- A row with commas tells the expressions between them. -/
theorem commas_inj (h : commas (phrasesEach fs) = commas (phrasesEach gs)) : fs = gs :=
  tails_inj hfs hfsLevel hgs hgsLevel heach (tails_eq_of_commas h)

end

theorem Fits.kind_eq (hf : f.Fits) (hg : g.Fits) (h : f.phrases = g.phrases) : f.kind = g.kind := by
  rw [← hf.kindOf_phrases, h, hg.kindOf_phrases]

/-- A row of phrases is read as one expression. -/
theorem Fits.unique (hf : f.Fits) (hg : g.Fits) (h : f.phrases = g.phrases) : f = g := by
  induction hf generalizing g with
  | atom ha =>
    have hkind := (Fits.atom ha).kind_eq hg h
    cases hg with
    | atom => simpa [phrases] using h
    | _ => cases hkind
  | array hitems hlevel ih =>
    have hkind := (Fits.array hitems hlevel).kind_eq hg h
    cases hg with
    | array hitems' hlevel' =>
      rw [commas_inj hitems hlevel hitems' hlevel' (fun f hf _ => ih f hf) (by simpa [phrases] using h)]
    | _ => cases hkind
  | paren hinner ih =>
    have hkind := (Fits.paren hinner).kind_eq hg h
    cases hg with
    | paren hinner' => rw [ih hinner' (by simpa [phrases] using h)]
    | _ => cases hkind
  | access hreceiver hlevel ih =>
    have hkind := (Fits.access hreceiver hlevel).kind_eq hg h
    cases hg with
    | access hreceiver' =>
      obtain ⟨hphrases, hname⟩ := List.append_inj' h rfl
      rw [ih hreceiver' hphrases]
      simpa using hname
    | _ => cases hkind
  | index hreceiver hlevel hplace ih ihplace =>
    have hkind := (Fits.index hreceiver hlevel hplace).kind_eq hg h
    cases hg with
    | index hreceiver' _ hplace' =>
      obtain ⟨hphrases, hgroup⟩ := List.append_inj' h rfl
      rw [ih hreceiver' hphrases, ihplace hplace' (by simpa using hgroup)]
    | _ => cases hkind
  | call hcallee hlevel hargs hargsLevel ih ihargs =>
    have hkind := (Fits.call hcallee hlevel hargs hargsLevel).kind_eq hg h
    cases hg with
    | call hcallee' _ hargs' hargsLevel' =>
      obtain ⟨hphrases, hgroup⟩ := List.append_inj' h rfl
      rw [ih hcallee' hphrases,
        commas_inj hargs hargsLevel hargs' hargsLevel' (fun f hf _ => ihargs f hf) (by simpa using hgroup)]
    | _ => cases hkind
  | new htype hlevel hargs hargsLevel ih ihargs =>
    have hkind := (Fits.new htype hlevel hargs hargsLevel).kind_eq hg h
    cases hg with
    | new htype' _ hargs' hargsLevel' =>
      obtain ⟨hphrases, hgroup⟩ := List.append_inj' h rfl
      rw [ih htype' (List.cons.inj hphrases).2,
        commas_inj hargs hargsLevel hargs' hargsLevel' (fun f hf _ => ihargs f hf) (by simpa using hgroup)]
    | _ => cases hkind
  | bareNew htype hlevel ih =>
    have hkind := (Fits.bareNew htype hlevel).kind_eq hg h
    cases hg with
    | bareNew htype' => rw [ih htype' (List.cons.inj h).2]
    | _ => cases hkind
  | unary hop hoperand hlevel ih =>
    have hkind := (Fits.unary hop hoperand hlevel).kind_eq hg h
    cases hg with
    | unary _ hoperand' =>
      obtain ⟨hatom, hphrases⟩ := List.cons.inj h
      rw [ih hoperand' hphrases, operatorAtom_inj (Phrase.atom.inj hatom)]
    | _ => cases hkind
  | binary hop hleft hright hleftLevel hrightLevel htarget ihleft ihright =>
    have hkind := (Fits.binary hop hleft hright hleftLevel hrightLevel htarget).kind_eq hg h
    cases hg with
    | binary hop' hleft' hright' hleftLevel' hrightLevel' =>
      rcases append_eq_append_cases h with
        ⟨hphrases, hrest⟩ | ⟨x, mid, hphrases, hrest⟩ | ⟨x, mid, hphrases, hrest⟩
      · obtain ⟨hatom, hrest⟩ := List.cons.inj hrest
        rw [ihleft hleft' hphrases, ihright hright' hrest, operatorAtom_inj (Phrase.atom.inj hatom)]
      · obtain ⟨rfl, hmid⟩ := List.cons.inj hrest
        exact (not_split_twice hop hop' hleft hleft' hright hrightLevel hleftLevel' hphrases hmid).elim
      · obtain ⟨rfl, hmid⟩ := List.cons.inj hrest
        exact (not_split_twice hop' hop hleft' hleft hright' hrightLevel' hleftLevel hphrases hmid).elim
    | _ => cases hkind

end Form

/-- A text means one expression at most. -/
theorem Alphabet.Parses.unique {A : Alphabet} {text : String} {tree tree' : Form}
    (h : A.Parses text tree) (h' : A.Parses text tree') : tree = tree' := by
  obtain ⟨f, hf, hlexes, rfl⟩ := h
  obtain ⟨g, hg, hlexes', rfl⟩ := h'
  rw [hf.unique hg (flatten_injective (hlexes.unique hlexes'))]

end Lowering.Script
