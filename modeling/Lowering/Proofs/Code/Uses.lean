import Lowering.Code.Expression
import Lowering.Code.Layout

/-! The names that code uses.

Of a piece of code, the uses are the pieces that stand for a name; verbatim text, line
breaks and margins use none. The code of an expression uses the classes that the
expression refers to and, where there is a cast in it, the class that performs casts. -/
namespace Lowering

/-- Whether the piece stands for a name. -/
def Piece.isUse : Piece → Bool
  | verbatim _ => false
  | name .. | quoted _ => true

/-! ### Code -/

namespace Code

/-- The pieces that stand for names, in the order of the text. -/
def uses (c : Code) : List Piece := c.filter (·.isUse)

@[simp] theorem uses_nil : uses [] = [] := rfl

@[simp] theorem uses_verbatim (text : String) (c : Code) : uses (.verbatim text :: c) = uses c := rfl

@[simp] theorem uses_name (use : NameUse) (n : Name) (c : Code) :
    uses (.name use n :: c) = .name use n :: uses c := rfl

@[simp] theorem uses_quoted (n : Name) (c : Code) : uses (.quoted n :: c) = .quoted n :: uses c := rfl

@[simp] theorem uses_append (c d : Code) : uses (c ++ d) = uses c ++ uses d := List.filter_append ..

@[simp] theorem uses_ofText (text : String) : uses (ofText text) = [] := by
  unfold ofText
  split <;> rfl

@[simp] theorem uses_between (opening closing : String) (c : Code) :
    uses (c.between opening closing) = uses c := by
  simp [between]

@[simp] theorem uses_joined (separator : String) (parts : List Code) :
    uses (joined separator parts) = parts.flatMap uses := by
  match parts with
  | [] => rfl
  | [c] => simp [joined]
  | c :: d :: rest =>
    have hrest := uses_joined separator (d :: rest)
    rw [joined, List.intercalate_cons_cons, uses_append, uses_append, ← joined, hrest,
      uses_verbatim, uses_nil, List.append_nil]
    rfl

@[simp] theorem uses_type (use : NameUse) (t : TypeRef) :
    uses (t.code use) = t.declared?.toList.map (.name use) := by
  cases t <;> rfl

end Code

/-! ### Expressions -/

namespace Expr

/-- What references and casts make code use. -/
def usesOf (helper : Name) (references : List Name) (hasCast : Bool) : List Piece :=
  references.map (.name .reference) ++ if hasCast then [.name .support helper] else []

/-- What an expression makes its code use. -/
def uses (helper : Name) (e : Expr) : List Piece := usesOf helper e.references e.hasCast

variable {helper : Name} {x : Piece}

theorem mem_usesOf {references : List Name} {hasCast : Bool} :
    x ∈ usesOf helper references hasCast ↔
      (∃ n ∈ references, .name .reference n = x) ∨ hasCast = true ∧ x = .name .support helper := by
  simp [usesOf]

theorem mem_usesOf_append {references references' : List Name} {hasCast hasCast' : Bool} :
    x ∈ usesOf helper (references ++ references') (hasCast || hasCast') ↔
      x ∈ usesOf helper references hasCast ∨ x ∈ usesOf helper references' hasCast' := by
  simp only [mem_usesOf, List.mem_append, Bool.or_eq_true, or_and_right, exists_or]
  rw [or_or_or_comm]

@[simp] theorem uses_parenthesized (needed : Bool) (c : Code) :
    Code.uses (parenthesized needed c) = Code.uses c := by
  unfold parenthesized
  split
  · exact Code.uses_between ..
  · rfl

variable (s : Scope)

/-- Where a setter is called the target is written as the getter's, and uses the same. -/
theorem uses_assign (target value : Expr) :
    Code.uses ((assign target value).code s) =
      Code.uses (target.code s) ++ Code.uses (value.code s) := by
  cases target with
  | member object name accessor => cases accessor <;> simp [code]
  | _ => simp [code]

mutual

/-- The code of an expression uses what the expression makes it use, and nothing else. -/
theorem mem_uses_code (e : Expr) :
    x ∈ Code.uses (e.code s) ↔ x ∈ e.uses s.languageHelper := by
  match e with
  | literal _ | this | ident _ => simp [code, uses, usesOf, references, hasCast]
  | member object name accessor =>
    have hobject := mem_uses_code object
    cases accessor <;> simpa [code, uses, references, hasCast] using hobject
  | staticMember owner name => simp [code, uses, usesOf, references, hasCast]
  | call callee args =>
    have hcallee := mem_uses_code callee
    have hargs := mem_uses_codeEach args
    rw [uses, references, hasCast, mem_usesOf_append, ← uses, ← hcallee, ← hargs]
    simp [code]
  | new type args =>
    have hargs := mem_uses_codeEach args
    rw [uses, references, hasCast, ← Bool.false_or (hasCastAny args), mem_usesOf_append, ← hargs]
    simp [code, usesOf]
  | classRef type => simp [code, uses, usesOf, references, hasCast]
  | cast value type =>
    have hvalue := mem_uses_code value
    have hcode : x ∈ Code.uses ((cast value type).code s) ↔
        x = .name .support s.languageHelper ∨ x ∈ Code.uses (value.code s) ∨
          ∃ n ∈ type.declared?.toList, .name .reference n = x := by
      simp [code]
    rw [hcode, hvalue, uses, uses, references, hasCast, mem_usesOf, mem_usesOf]
    simp only [List.mem_append, or_and_right, exists_or, true_and]
    grind
  | assign target value =>
    have htarget := mem_uses_code target
    have hvalue := mem_uses_code value
    rw [uses, references, hasCast, mem_usesOf_append, ← uses, ← uses, ← htarget, ← hvalue,
      uses_assign, List.mem_append]
  | binary op left right =>
    have hleft := mem_uses_code left
    have hright := mem_uses_code right
    rw [uses, references, hasCast, mem_usesOf_append, ← uses, ← uses, ← hleft, ← hright]
    simp [code]
  | array items =>
    have hitems := mem_uses_codeEach items
    rw [uses, references, hasCast, ← hitems]
    simp [code]

theorem mem_uses_codeEach (es : List Expr) :
    x ∈ (codeEach s es).flatMap Code.uses ↔
      x ∈ usesOf s.languageHelper (referencesAll es) (hasCastAny es) := by
  match es with
  | [] => simp [codeEach, referencesAll, hasCastAny, usesOf]
  | e :: rest =>
    have he := mem_uses_code e
    have hrest := mem_uses_codeEach rest
    rw [codeEach, referencesAll, hasCastAny, List.flatMap_cons, List.mem_append, he, hrest,
      mem_usesOf_append, uses]

end

end Expr

/-- A statement uses what its expression uses. -/
@[simp] theorem Stmt.uses_code (s : Scope) (statement : Stmt) :
    Code.uses (statement.code s) = statement.expr?.toList.flatMap fun e => Code.uses (e.code s) := by
  cases statement with
  | expr value => simp [Stmt.code, Stmt.expr?]
  | var name init => cases init <;> simp [Stmt.code, Stmt.expr?]
  | ret value => cases value <;> simp [Stmt.code, Stmt.expr?]

/-! ### Layouts -/

/-- The uses of a line; other steps have none. -/
def LayoutStep.uses : LayoutStep → List Piece
  | line code => code.uses
  | _ => []

namespace Layout

/-- The pieces that stand for names, in the order of the text. -/
def uses (l : Layout) : List Piece := l.flatMap (·.uses)

@[simp] theorem uses_nil : uses [] = [] := rfl

@[simp] theorem uses_append (l l' : Layout) : uses (l ++ l') = uses l ++ uses l' :=
  List.flatMap_append

@[simp] theorem uses_flatMap {α : Type} (items : List α) (layout : α → Layout) :
    uses (items.flatMap layout) = items.flatMap fun a => uses (layout a) :=
  List.flatMap_assoc

@[simp] theorem uses_line (c : Code) : uses (line c) = c.uses := List.append_nil _

@[simp] theorem uses_say (text : String) : uses (say text) = [] :=
  (uses_line _).trans (Code.uses_ofText text)

@[simp] theorem uses_gap (n : Nat) : uses (gap n) = [] :=
  List.flatMap_eq_nil_iff.mpr fun step hstep => by rw [List.eq_of_mem_replicate hstep]; rfl

@[simp] theorem uses_nested (l : Layout) : uses (nested l) = uses l := by
  rw [nested, uses_append]
  exact List.append_nil _

@[simp] theorem uses_listed (items : List Code) : uses (listed items) = items.flatMap Code.uses := by
  match items with
  | [] => rfl
  | [c] => simp [listed]
  | c :: d :: rest =>
    have hlisted : listed (c :: d :: rest) = line (c ++ [.verbatim ","]) ++ listed (d :: rest) := rfl
    rw [hlisted, uses_append, uses_listed (d :: rest)]
    simp

@[simp] theorem uses_doc (tags : List Code) : uses (doc tags) = tags.flatMap Code.uses := by
  have htag (tag : Code) : uses (tagLine tag) = tag.uses := by
    simp [tagLine]
  simp [doc, htag]

end Layout

/-- The name that a piece stands for. -/
def Piece.name? : Piece → Option Name
  | verbatim _ => none
  | name _ n => some n
  | quoted n => some n

/-- The names that a layout uses. -/
def Layout.names (l : Layout) : List Name := l.uses.filterMap (·.name?)

theorem Layout.mem_names {l : Layout} {n : Name} :
    n ∈ l.names ↔ (∃ use, .name use n ∈ l.uses) ∨ .quoted n ∈ l.uses := by
  rw [names, List.mem_filterMap]
  constructor
  · intro hright
    obtain ⟨p, hp, hn⟩ := hright
    cases p with
    | verbatim text => cases hn
    | name use m =>
      obtain rfl := Option.some.inj hn
      exact .inl ⟨use, hp⟩
    | quoted m =>
      obtain rfl := Option.some.inj hn
      exact .inr hp
  · intro hright
    rcases hright with ⟨use, hn⟩ | hn
    · exact ⟨_, hn, rfl⟩
    · exact ⟨_, hn, rfl⟩

/-! ### Code without the types of signatures -/

/-- Whether the piece is a type in the signature of a declared method. -/
def Piece.isSignature : Piece → Bool
  | name .signature _ => true
  | _ => false

def LayoutStep.unsigned : LayoutStep → LayoutStep
  | line code => line (code.filter (!·.isSignature))
  | step => step

/-- The layout with the types of signatures left out. -/
def Layout.unsigned (l : Layout) : Layout := l.map (·.unsigned)

theorem LayoutStep.uses_unsigned (step : LayoutStep) :
    step.unsigned.uses = step.uses.filter (!·.isSignature) := by
  cases step with
  | line code =>
    show (code.filter _).filter _ = (code.filter _).filter _
    rw [List.filter_filter, List.filter_filter]
    exact List.filter_congr fun p _ => Bool.and_comm ..
  | blank => rfl
  | indent => rfl
  | dedent => rfl

theorem Layout.uses_unsigned (l : Layout) : l.unsigned.uses = l.uses.filter (!·.isSignature) := by
  induction l with
  | nil => rfl
  | cons step rest ih =>
    show step.unsigned.uses ++ uses (unsigned rest) = (step.uses ++ uses rest).filter _
    rw [ih, LayoutStep.uses_unsigned, List.filter_append]

end Lowering
