import Lowering.Proofs.Code.Tree

/-! Whether parentheses stand where they are needed.

Binary operations and assignments are put in parentheses as operands, and these and instantiations
as what a member or a call is taken of. Then every part binds as closely as its place asks for, with
one exception: a negative literal is an operator and its operand, and binds too loosely to be
accessed, called or raised to a power, where it is not put in parentheses (`fits_form_iff`). -/
namespace Lowering

open Script (Alphabet Form Level)

/-! ### Names -/

namespace Name

variable {A : Alphabet} {n : Name}

theorem level_tree (n : Name) : n.tree.level = .member := by
  have hfold (rest : List String) (f : Form) : (rest.foldl Form.access f).level = f.level := by
    induction rest generalizing f with
    | nil => rfl
    | cons segment rest ih => exact ih _
  unfold tree
  split
  · rfl
  · exact hfold _ _

theorem fits_tree (h : A.IsPath n) : n.tree.Fits := by
  have hfold (rest : List String) (f : Form) (h : f.Fits) (hlevel : f.level ≤ .call) :
      (rest.foldl Form.access f).Fits := by
    induction rest generalizing f with
    | nil => exact h
    | cons segment rest ih => exact ih _ (.access h hlevel) hlevel
  unfold tree
  split
  · exact .atom rfl
  next first rest hsegments =>
    have hfirst := h.2 first (by rw [hsegments]; rfl)
    exact hfold rest _ (.atom (by simp [Script.Atom.isOperand, hfirst])) (Level.member_le _)

end Name

theorem Literal.fits_tree (v : Literal) : v.tree.Fits := by
  have hoperand : v.magnitude.isOperand = true := by
    cases v with
    | bool b => cases b <;> rfl
    | number x =>
      simp only [magnitude]
      split
      · decide
      · split
        · decide
        · rfl
    | _ => rfl
  unfold tree
  split
  · exact .unary (by decide) (.atom hoperand) (Level.member_le _)
  · exact .atom hoperand

namespace Expr

/-- Whether the expression is written with a minus sign in front. -/
def isNegative : Expr → Bool
  | literal value => value.isNegative
  | _ => false

/-- No negative literal stands where only what binds closer may stand. -/
def binds : Expr → Bool
  | member object _ _ => !object.isNegative
  | call callee _ => !callee.isNegative
  | binary op left _ => !(op = "**" && left.isNegative)
  | _ => true

variable {A : Alphabet} {s : Scope} {spelling : Name → String} {e : Expr}

/-! ### Levels -/

theorem level_of_negative (h : e.isNegative = true) : (e.form s spelling).level = .unary := by
  cases e with
  | literal v =>
    have hv : v.isNegative = true := h
    rw [form, Literal.tree, if_pos hv]
    rfl
  | _ => cases h

/-- What is no operation binds closely, unless it is a negative literal. -/
theorem level_form (hbinds : e.Throughout (·.binds)) (hloose : e.isLooseOperand = false)
    (hnegative : e.isNegative = false) : (e.form s spelling).level ≤ .call := by
  induction e using Expr.induction with
  | literal v =>
    rw [form, Literal.tree, if_neg (by simpa [isNegative] using hnegative)]
    exact Level.member_le _
  | member object name accessor ih =>
    cases accessor with
    | true => exact Level.le_refl _
    | false =>
      obtain ⟨hobject, hparts⟩ := (throughout_member ..).mp hbinds
      rw [form, Form.level, enclosed]
      split
      · exact Level.member_le _
      next hreceiver =>
        refine ih hparts ?_ (by simpa [binds] using hobject)
        cases object <;> simp_all [isLooseReceiver, isLooseOperand]
  | staticMember owner name =>
    rw [form, Form.level, TypeRef.tree, Name.level_tree]
    exact Level.member_le _
  | classRef type =>
    rw [form, TypeRef.tree, Name.level_tree]
    exact Level.member_le _
  | assign => cases hloose
  | binary => cases hloose
  | call => exact Level.le_refl _
  | cast => exact Level.le_refl _
  | _ => exact Level.member_le _

/-- What is not in parentheses as a receiver is no operation. -/
theorem not_looseOperand (h : ¬e.isLooseReceiver = true) : e.isLooseOperand = false := by
  cases e with
  | binary => exact absurd rfl h
  | assign => exact absurd rfl h
  | _ => rfl

/-- A negative literal is not put in parentheses. -/
theorem not_loose_of_negative (h : e.isNegative = true) :
    e.isLooseReceiver = false ∧ e.isLooseOperand = false := by
  cases e with
  | literal => exact ⟨rfl, rfl⟩
  | _ => cases h

/-- Where calls may stand but no signs, and what is an operation is put in parentheses, an expression
may stand unless it is a negative literal. -/
theorem level_enclosed_iff {loose : Bool} {level : Level} (hbinds : e.Throughout (·.binds))
    (hoperation : loose = false → e.isLooseOperand = false) (hliteral : e.isNegative = true → loose = false)
    (hcall : .call ≤ level) (hunary : ¬.unary ≤ level) :
    (enclosed loose (e.form s spelling)).level ≤ level ↔ e.isNegative = false := by
  constructor
  · intro hlevel
    cases hnegative : e.isNegative with
    | false => rfl
    | true =>
      rw [hliteral hnegative, enclosed, if_neg Bool.false_ne_true, level_of_negative hnegative] at hlevel
      exact absurd hlevel hunary
  · intro hnegative
    rw [enclosed]
    split
    · exact Level.member_le level
    next hloose =>
      exact Level.le_trans (level_form hbinds (hoperation (by simpa using hloose)) hnegative) hcall

theorem level_receiver (hbinds : e.Throughout (·.binds)) :
    (enclosed e.isLooseReceiver (e.form s spelling)).level ≤ .call ↔ e.isNegative = false :=
  level_enclosed_iff hbinds (fun hloose => not_looseOperand (by simp [hloose]))
    (fun hnegative => (not_loose_of_negative hnegative).1) (Level.le_refl _) (by decide)

theorem level_operand (hbinds : e.Throughout (·.binds)) :
    (enclosed e.isLooseOperand (e.form s spelling)).level ≤ .unary := by
  rw [enclosed]
  split
  · exact Level.member_le _
  next hloose =>
    cases hnegative : e.isNegative with
    | true =>
      rw [level_of_negative hnegative]
      exact Level.le_refl _
    | false => exact Level.le_trans (level_form hbinds (by simpa using hloose) hnegative) (by decide)

theorem level_base (hbinds : e.Throughout (·.binds)) :
    (enclosed e.isLooseOperand (e.form s spelling)).level ≤ .leftHand ↔ e.isNegative = false :=
  level_enclosed_iff hbinds id (fun hnegative => (not_loose_of_negative hnegative).2) (by decide) (by decide)

/-- Every expression can be an argument. -/
theorem level_argument (hregular : e.Throughout (·.IsRegular A)) (hbinds : e.Throughout (·.binds)) :
    (e.form s spelling).level ≤ .assignment := by
  have hoperand : (enclosed e.isLooseOperand (e.form s spelling)).level ≤ .unary := level_operand hbinds
  cases e with
  | binary op left right =>
    obtain ⟨⟨o, ho, rfl⟩, -⟩ := (throughout_binary ..).mp hregular
    have hown : ∀ o ∈ Script.binaryOperators, o.own ≤ .assignment := by decide
    rw [form, Form.level_binary (Script.operator?_symbol o (Script.mem_operators ho))]
    exact hown o ho
  | assign target value =>
    rcases accessor_or target with ⟨object, name, rfl⟩ | htarget
    · exact (by decide : Level.call ≤ .assignment)
    · rw [form_assign s spelling htarget]
      exact Level.le_refl .assignment
  | _ => exact Level.le_trans hoperand (by decide)

/-! ### Productions -/

theorem fits_enclosed (needed : Bool) (f : Form) : (enclosed needed f).Fits ↔ f.Fits := by
  cases needed with
  | true => exact Form.fits_paren
  | false => exact Iff.rfl

section
variable {object callee left right : Expr} {op name : String} {accessor : Bool} {args : List Expr}

theorem binds_member : (member object name accessor).binds = true ↔ object.isNegative = false := by
  simp [binds]

theorem binds_call : (call callee args).binds = true ↔ callee.isNegative = false := by
  simp [binds]

theorem binds_binary : (binary op left right).binds = true ↔ (op = "**" → left.isNegative = false) := by
  by_cases hpower : op = "**" <;> simp [binds, hpower]

end

/-- As what is accessed or called. -/
theorem fits_receiver (h : (e.form s spelling).Fits ↔ e.Throughout (·.binds)) :
    (enclosed e.isLooseReceiver (e.form s spelling)).Fits ∧
        (enclosed e.isLooseReceiver (e.form s spelling)).level ≤ .call ↔
      e.isNegative = false ∧ e.Throughout (·.binds) := by
  rw [fits_enclosed, h, and_comm (a := e.isNegative = false)]
  exact and_congr_right level_receiver

theorem fits_operand {l : Level} (hl : .unary ≤ l)
    (h : (e.form s spelling).Fits ↔ e.Throughout (·.binds)) :
    (enclosed e.isLooseOperand (e.form s spelling)).Fits ∧
        (enclosed e.isLooseOperand (e.form s spelling)).level ≤ l ↔ e.Throughout (·.binds) := by
  rw [fits_enclosed, h]
  exact and_iff_left_of_imp fun hbinds => Level.le_trans (level_operand hbinds) hl

/-- As what is raised to a power. -/
theorem fits_base (h : (e.form s spelling).Fits ↔ e.Throughout (·.binds)) :
    (enclosed e.isLooseOperand (e.form s spelling)).Fits ∧
        (enclosed e.isLooseOperand (e.form s spelling)).level ≤ .leftHand ↔
      e.isNegative = false ∧ e.Throughout (·.binds) := by
  rw [fits_enclosed, h, and_comm (a := e.isNegative = false)]
  exact and_congr_right level_base

theorem fits_argument (hregular : e.Throughout (·.IsRegular A))
    (h : (e.form s spelling).Fits ↔ e.Throughout (·.binds)) :
    (e.form s spelling).Fits ∧ (e.form s spelling).level ≤ .assignment ↔ e.Throughout (·.binds) := by
  rw [h]
  exact and_iff_left_of_imp (level_argument hregular)

theorem fits_arguments {es : List Expr} (hregular : ∀ e ∈ es, e.Throughout (·.IsRegular A))
    (h : ∀ e ∈ es, e.Throughout (·.IsRegular A) → ((e.form s spelling).Fits ↔ e.Throughout (·.binds))) :
    (∀ f ∈ formEach s spelling es, f.Fits ∧ f.level ≤ .assignment) ↔
      ∀ e ∈ es, e.Throughout (·.binds) := by
  rw [formEach_eq, List.forall_mem_map]
  exact forall₂_congr fun e he => fits_argument (hregular e he) (h e he (hregular e he))

/-- A path binds closely. -/
theorem fits_path {n : Name} (hn : A.IsPath n) (l : Level) : n.tree.Fits ∧ n.tree.level ≤ l := by
  rw [Name.level_tree]
  exact ⟨Name.fits_tree hn, Level.member_le l⟩

/-- What can be assigned to is neither an operation nor a negative literal. -/
theorem not_operation_of_isPlace (h : e.isPlace = true) :
    e.isLooseOperand = false ∧ e.isNegative = false := by
  cases e with
  | ident | member | staticMember => exact ⟨rfl, rfl⟩
  | _ => cases h

/-- The form of what can be assigned to is a target, unless it is an accessor. -/
theorem isTarget_form (hplace : e.isPlace = true) (hregular : e.IsRegular A)
    (haccessor : ∀ object name, e ≠ member object name true) : (e.form s spelling).isTarget = true := by
  cases e with
  | ident name => exact decide_eq_true hregular.2
  | member object name accessor =>
    cases accessor with
    | true => exact absurd rfl (haccessor object name)
    | false => rfl
  | staticMember owner name => rfl
  | _ => cases hplace

/-- The sides of binary operators take every operand, but for the base of a power. -/
theorem sides_of_binary :
    ∀ o ∈ Script.binaryOperators, o.symbol ≠ "=" ∧ Level.unary ≤ o.right ∧
      if o.symbol = "**" then o.left = .leftHand else Level.unary ≤ o.left := by
  decide

/-- The form of an expression is made by the productions exactly if no negative literal stands where
it may not. -/
theorem fits_form_iff (hs : s.IsRegular A) (hspelling : ∀ n, A.IsPath n → A.IsPath ⟨spelling n⟩)
    (hregular : e.Throughout (·.IsRegular A)) : (e.form s spelling).Fits ↔ e.Throughout (·.binds) := by
  have htype {t : TypeRef} (ht : t.IsRegular A) : A.IsPath (t.spelled spelling) := by
    cases t with
    | builtin name => exact ht
    | declared n => exact hspelling n ht
  induction e using Expr.induction with
  | literal v => exact iff_of_true v.fits_tree ((throughout_literal v).mpr rfl)
  | this => exact iff_of_true (.atom rfl) (throughout_this.mpr rfl)
  | ident name =>
    have hname := ((throughout_ident name).mp hregular).2
    exact iff_of_true (.atom (by simp [Script.Atom.isOperand, hname])) ((throughout_ident name).mpr rfl)
  | member object name accessor ih =>
    have hobject := fits_receiver (ih ((throughout_member ..).mp hregular).2)
    rw [throughout_member, binds_member]
    cases accessor with
    | true =>
      rw [form, Form.fits_method, hobject]
      exact and_iff_left (List.forall_mem_nil _)
    | false => rw [form, Form.fits_access, hobject]
  | staticMember owner name =>
    have howner := htype ((throughout_staticMember ..).mp hregular).1
    rw [form, TypeRef.tree, Form.fits_access]
    exact iff_of_true (fits_path howner _) ((throughout_staticMember ..).mpr rfl)
  | call callee args ih ihargs =>
    obtain ⟨-, hcallee, hargs⟩ := (throughout_call ..).mp hregular
    rw [form, Form.fits_call, fits_receiver (ih hcallee), fits_arguments hargs ihargs, throughout_call,
      binds_call, and_assoc]
  | new type args ihargs =>
    obtain ⟨htypeRegular, hargs⟩ := (throughout_new ..).mp hregular
    rw [form, TypeRef.tree, Form.fits_new, fits_arguments hargs ihargs, throughout_new]
    exact and_congr_left' (iff_of_true (fits_path (htype htypeRegular) _) rfl)
  | classRef type =>
    have hpath := htype ((throughout_classRef type).mp hregular)
    exact iff_of_true (Name.fits_tree hpath) ((throughout_classRef type).mpr rfl)
  | cast value type ih =>
    obtain ⟨htypeRegular, hvalue⟩ := (throughout_cast ..).mp hregular
    have hothers : ∀ f ∈ [type.tree spelling, .atom (.word "true")], f.Fits ∧ f.level ≤ .assignment := by
      rw [List.forall_mem_cons, List.forall_mem_singleton]
      exact ⟨fits_path (htype htypeRegular) _, .atom rfl, Level.member_le _⟩
    rw [form, Form.fits_method, List.forall_mem_cons, fits_argument hvalue (ih hvalue), throughout_cast]
    have hhelper := fits_path (hspelling _ hs.languageHelper) .call
    exact and_congr (iff_of_true hhelper rfl) (and_iff_left hothers)
  | assign target value ih ihobject ihvalue =>
    obtain ⟨hplace, htarget, hvalue⟩ := (throughout_assign ..).mp hregular
    have hargument := fits_argument hvalue (ihvalue hvalue)
    rw [throughout_assign]
    rcases accessor_or target with ⟨object, name, rfl⟩ | haccessor
    · have hobject := fits_receiver (ihobject object name true rfl ((throughout_member ..).mp htarget).2)
      rw [form, Form.fits_method, hobject, List.forall_mem_singleton, hargument, throughout_member,
        binds_member]
      exact (and_iff_right rfl).symm
    · obtain ⟨hloose, hnegative⟩ := not_operation_of_isPlace hplace
      have hlevel (hbinds : target.Throughout (·.binds)) : (target.form s spelling).level ≤ .leftHand :=
        Level.le_trans (level_form hbinds hloose hnegative) (by decide)
      have hfits : (target.form s spelling).Fits ↔ target.Throughout (·.binds) := ih htarget
      have hop : Script.operator? "=" = some ⟨"=", .assignment, .leftHand, .assignment⟩ := rfl
      rw [form_assign s spelling haccessor, Form.fits_binary hop, hargument, hfits,
        and_iff_left_of_imp hlevel, and_iff_left fun _ => isTarget_form hplace htarget.self haccessor]
      exact (and_iff_right rfl).symm
  | binary op left right ihleft ihright =>
    obtain ⟨⟨o, ho, rfl⟩, hleft, hright⟩ := (throughout_binary ..).mp hregular
    obtain ⟨hassignment, hsideRight, hsideLeft⟩ := sides_of_binary o ho
    rw [form, Form.fits_binary (Script.operator?_symbol o (Script.mem_operators ho)),
      fits_operand hsideRight (ihright hright), and_iff_left fun h => absurd h hassignment,
      throughout_binary, binds_binary, ← and_assoc]
    refine and_congr_left' ?_
    split at hsideLeft
    next hpower => rw [hsideLeft, fits_base (ihleft hleft), imp_iff_right hpower]
    next hpower =>
      rw [fits_operand hsideLeft (ihleft hleft)]
      exact (and_iff_right fun h => absurd h hpower).symm
  | array items ihitems =>
    obtain ⟨-, hitems⟩ := (throughout_array items).mp hregular
    rw [form, Form.fits_array, fits_arguments hitems ihitems, throughout_array]
    exact (and_iff_right rfl).symm

end Expr

end Lowering
