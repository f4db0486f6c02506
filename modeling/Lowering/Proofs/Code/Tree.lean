import Lowering.Code.Expression
import Lowering.Proofs.Script.Grammar

/-! What the code of an expression is meant to say.

The tree of an expression is the expression of the script that its code is meant to be: with reads
and writes of accessors as calls, casts as calls of the helper, and classes under their identifiers
(`Expr.tree`). The form is the same with the parentheses that are written (`Expr.form`), and without
them it is the tree (`bare_form`). -/
namespace Lowering

open Script (Form)

/-! ### Trees -/

namespace Literal

/-- Whether the literal is written with a minus sign. -/
def isNegative : Literal → Bool
  | int n => n.toInt < 0
  | number x => !x.isNaN && x.isNegative
  | _ => false

/-- What stands behind the sign. -/
def magnitude : Literal → Script.Atom
  | null => .word "null"
  | bool b => .word (if b then "true" else "false")
  | int n => .number n.toInt.natAbs.repr
  | number x =>
    if x.isNaN then .word "NaN"
    else if x.isInfinite then .word "Infinity"
    else .number (Decimal.shortest x).positional
  | string s => .string s

def tree (v : Literal) : Form :=
  if v.isNegative then .unary "-" (.atom v.magnitude) else .atom v.magnitude

end Literal

/-- A dotted name: members of what its first segment names. -/
def Name.tree (n : Name) : Form :=
  match n.segments with
  | [] => .atom (.word "")
  | first :: rest => rest.foldl .access (.atom (.word first))

/-- How a type is called. -/
def TypeRef.spelled (spelling : Name → String) : TypeRef → Name
  | .builtin name => ⟨name⟩
  | .declared n => ⟨spelling n⟩

def TypeRef.tree (spelling : Name → String) (t : TypeRef) : Form := (t.spelled spelling).tree

namespace Expr

variable (s : Scope) (spelling : Name → String)

mutual

/-- What the code of an expression is meant to be. -/
def tree : Expr → Form
  | literal value => value.tree
  | this => .atom (.word "this")
  | ident name => .atom (.word name)
  | member object name true => .call (.access object.tree (getterName name)) []
  | member object name false => .access object.tree (object.memberNameOn s name)
  | staticMember owner name => .access (owner.tree spelling) (staticNameOn s owner name)
  | call callee args => .call callee.tree (treeEach args)
  | new type args => .new (type.tree spelling) (treeEach args)
  | classRef type => type.tree spelling
  | cast value type =>
    .call (.access (Name.tree ⟨spelling s.languageHelper⟩) "as")
      [value.tree, type.tree spelling, .atom (.word "true")]
  | assign (member object name true) value => .call (.access object.tree (setterName name)) [value.tree]
  | assign target value => .binary "=" target.tree value.tree
  | binary op left right => .binary op left.tree right.tree
  | array items => .array (treeEach items)

def treeEach : List Expr → List Form
  | [] => []
  | e :: rest => e.tree :: treeEach rest

end

/-! ### Forms -/

/-- The form, in parentheses if they are needed. -/
def enclosed (needed : Bool) (f : Form) : Form := if needed then .paren f else f

mutual

/-- The code of an expression, with its parentheses. -/
def form : Expr → Form
  | literal value => value.tree
  | this => .atom (.word "this")
  | ident name => .atom (.word name)
  | member object name true =>
    .call (.access (enclosed object.isLooseReceiver object.form) (getterName name)) []
  | member object name false =>
    .access (enclosed object.isLooseReceiver object.form) (object.memberNameOn s name)
  | staticMember owner name => .access (owner.tree spelling) (staticNameOn s owner name)
  | call callee args => .call (enclosed callee.isLooseReceiver callee.form) (formEach args)
  | new type args => .new (type.tree spelling) (formEach args)
  | classRef type => type.tree spelling
  | cast value type =>
    .call (.access (Name.tree ⟨spelling s.languageHelper⟩) "as")
      [value.form, type.tree spelling, .atom (.word "true")]
  | assign (member object name true) value =>
    .call (.access (enclosed object.isLooseReceiver object.form) (setterName name)) [value.form]
  | assign target value => .binary "=" target.form value.form
  | binary op left right =>
    .binary op (enclosed left.isLooseOperand left.form) (enclosed right.isLooseOperand right.form)
  | array items => .array (formEach items)

def formEach : List Expr → List Form
  | [] => []
  | e :: rest => e.form :: formEach rest

end

theorem formEach_eq (es : List Expr) : formEach s spelling es = es.map (form s spelling) := by
  induction es with
  | nil => rfl
  | cons e rest ih => rw [formEach, ih, List.map_cons]

theorem treeEach_eq (es : List Expr) : treeEach s spelling es = es.map (tree s spelling) := by
  induction es with
  | nil => rfl
  | cons e rest ih => rw [treeEach, ih, List.map_cons]

/-- Where no accessor is assigned to, the assignment stays one. -/
theorem tree_assign {target : Expr} (h : ∀ object name, target ≠ member object name true)
    (value : Expr) :
    (assign target value).tree s spelling =
      .binary "=" (target.tree s spelling) (value.tree s spelling) := by
  rw [tree]
  exact h

theorem form_assign {target : Expr} (h : ∀ object name, target ≠ member object name true)
    (value : Expr) :
    (assign target value).form s spelling =
      .binary "=" (target.form s spelling) (value.form s spelling) := by
  rw [form]
  exact h

theorem code_assign {target : Expr} (h : ∀ object name, target ≠ member object name true)
    (value : Expr) :
    (assign target value).code s = target.code s ++ [.verbatim " = "] ++ value.code s := by
  rw [code]
  exact h

theorem accessor_or (target : Expr) :
    (∃ object name, target = member object name true) ∨
      ∀ object name, target ≠ member object name true := by
  cases target with
  | member object name accessor =>
    cases accessor with
    | true => exact .inl ⟨object, name, rfl⟩
    | false => exact .inr nofun
  | _ => exact .inr nofun

/-! ### Expressions and their parts -/

/-- What holds of an expression if it holds of its parts; of the receiver that is assigned to, too. -/
theorem induction {P : Expr → Prop} (literal : ∀ v, P (literal v)) (this : P this)
    (ident : ∀ name, P (ident name))
    (member : ∀ object name accessor, P object → P (member object name accessor))
    (staticMember : ∀ owner name, P (staticMember owner name))
    (call : ∀ callee args, P callee → (∀ e ∈ args, P e) → P (call callee args))
    (new : ∀ type args, (∀ e ∈ args, P e) → P (new type args))
    (classRef : ∀ type, P (classRef type))
    (cast : ∀ value type, P value → P (cast value type))
    (assign : ∀ target value, P target →
      (∀ object name accessor, target = .member object name accessor → P object) →
      P value → P (assign target value))
    (binary : ∀ op left right, P left → P right → P (binary op left right))
    (array : ∀ items, (∀ e ∈ items, P e) → P (array items)) (e : Expr) : P e := by
  refine (@Expr.rec (fun e => P e ∧ ∀ object name accessor, e = .member object name accessor → P object)
    (fun es => ∀ e ∈ es, P e) ?_ ?_ ?_ ?_ ?_ ?_ ?_ ?_ ?_ ?_ ?_ ?_ ?_ ?_ e).1
  · exact fun v => ⟨literal v, nofun⟩
  · exact ⟨this, nofun⟩
  · exact fun name => ⟨ident name, nofun⟩
  · rintro object name accessor ⟨hobject, -⟩
    exact ⟨member object name accessor hobject, fun _ _ _ h => (Expr.member.inj h).1 ▸ hobject⟩
  · exact fun owner name => ⟨staticMember owner name, nofun⟩
  · exact fun callee args hcallee hargs => ⟨call callee args hcallee.1 hargs, nofun⟩
  · exact fun type args hargs => ⟨new type args hargs, nofun⟩
  · exact fun type => ⟨classRef type, nofun⟩
  · exact fun value type hvalue => ⟨cast value type hvalue.1, nofun⟩
  · exact fun target value htarget hvalue => ⟨assign target value htarget.1 htarget.2 hvalue.1, nofun⟩
  · exact fun op left right hleft hright => ⟨binary op left right hleft.1 hright.1, nofun⟩
  · exact fun items hitems => ⟨array items hitems, nofun⟩
  · nofun
  · exact fun e rest he hrest => List.forall_mem_cons.mpr ⟨he.1, hrest⟩

mutual

/-- The expression and everything that it is made of. -/
def parts (e : Expr) : List Expr :=
  e :: match e with
    | literal _ | this | ident _ | staticMember _ _ | classRef _ => []
    | member object _ _ => object.parts
    | call callee args => callee.parts ++ partsEach args
    | new _ args => partsEach args
    | cast value _ => value.parts
    | assign target value => target.parts ++ value.parts
    | binary _ left right => left.parts ++ right.parts
    | array items => partsEach items

def partsEach : List Expr → List Expr
  | [] => []
  | e :: rest => e.parts ++ partsEach rest

end

/-- The expression and everything that it is made of satisfy `P`. -/
def Throughout (P : Expr → Prop) (e : Expr) : Prop := ∀ d ∈ e.parts, P d

section
variable {P Q : Expr → Prop} {e : Expr}

theorem Throughout.self (h : e.Throughout P) : P e := by
  refine h e ?_
  unfold parts
  exact List.mem_cons_self

theorem forall_mem_partsEach (es : List Expr) :
    (∀ d ∈ partsEach es, P d) ↔ ∀ e ∈ es, e.Throughout P := by
  induction es with
  | nil => simp [partsEach]
  | cons e rest ih => rw [partsEach, List.forall_mem_append, ih, List.forall_mem_cons, Throughout]

@[simp] theorem throughout_literal (value : Literal) :
    (literal value).Throughout P ↔ P (literal value) :=
  List.forall_mem_singleton

@[simp] theorem throughout_this : this.Throughout P ↔ P this := List.forall_mem_singleton

@[simp] theorem throughout_ident (name : String) : (ident name).Throughout P ↔ P (ident name) :=
  List.forall_mem_singleton

@[simp] theorem throughout_member (object : Expr) (name : String) (accessor : Bool) :
    (member object name accessor).Throughout P ↔
      P (member object name accessor) ∧ object.Throughout P :=
  List.forall_mem_cons

@[simp] theorem throughout_staticMember (owner : TypeRef) (name : String) :
    (staticMember owner name).Throughout P ↔ P (staticMember owner name) :=
  List.forall_mem_singleton

@[simp] theorem throughout_call (callee : Expr) (args : List Expr) :
    (call callee args).Throughout P ↔
      P (call callee args) ∧ callee.Throughout P ∧ ∀ e ∈ args, e.Throughout P := by
  rw [← forall_mem_partsEach]
  exact List.forall_mem_cons.trans (and_congr_right' List.forall_mem_append)

@[simp] theorem throughout_new (type : TypeRef) (args : List Expr) :
    (new type args).Throughout P ↔ P (new type args) ∧ ∀ e ∈ args, e.Throughout P := by
  rw [← forall_mem_partsEach]
  exact List.forall_mem_cons

@[simp] theorem throughout_classRef (type : TypeRef) :
    (classRef type).Throughout P ↔ P (classRef type) :=
  List.forall_mem_singleton

@[simp] theorem throughout_cast (value : Expr) (type : TypeRef) :
    (cast value type).Throughout P ↔ P (cast value type) ∧ value.Throughout P :=
  List.forall_mem_cons

@[simp] theorem throughout_assign (target value : Expr) :
    (assign target value).Throughout P ↔
      P (assign target value) ∧ target.Throughout P ∧ value.Throughout P :=
  List.forall_mem_cons.trans (and_congr_right' List.forall_mem_append)

@[simp] theorem throughout_binary (op : String) (left right : Expr) :
    (binary op left right).Throughout P ↔
      P (binary op left right) ∧ left.Throughout P ∧ right.Throughout P :=
  List.forall_mem_cons.trans (and_congr_right' List.forall_mem_append)

@[simp] theorem throughout_array (items : List Expr) :
    (array items).Throughout P ↔ P (array items) ∧ ∀ e ∈ items, e.Throughout P := by
  rw [← forall_mem_partsEach]
  exact List.forall_mem_cons

theorem throughout_and (e : Expr) :
    e.Throughout (fun d => P d ∧ Q d) ↔ e.Throughout P ∧ e.Throughout Q := by
  simp only [Throughout, imp_and, forall_and]

end

end Expr

/-! ### Regular expressions -/

namespace Script.Alphabet

variable (A : Alphabet)

/-- A name that is not reserved. -/
def IsIdentifier (name : String) : Prop := A.IsName name.toList ∧ name ∉ reserved

/-- Names with dots between them, the first of them not reserved. -/
def IsPath (n : Name) : Prop :=
  (∀ segment ∈ n.segments, A.IsName segment.toList) ∧ ∀ first ∈ n.segments.head?, first ∉ reserved

instance (name : String) : Decidable (A.IsIdentifier name) :=
  inferInstanceAs (Decidable (A.IsName name.toList ∧ name ∉ reserved))

instance (n : Name) : Decidable (A.IsPath n) :=
  inferInstanceAs (Decidable ((∀ segment ∈ n.segments, A.IsName segment.toList) ∧
    ∀ first ∈ n.segments.head?, first ∉ reserved))

end Script.Alphabet

open Script (Alphabet)

/-- The new names of members are names, and the helper has a name that can be written. -/
structure Scope.IsRegular (A : Alphabet) (s : Scope) : Prop where
  renames : ∀ name new, s.renames.get? name = some new → A.IsName new.toList
  staticRenames : ∀ name new, s.staticRenames.get? name = some new → A.IsName new.toList
  languageHelper : A.IsPath s.languageHelper

def TypeRef.IsRegular (A : Alphabet) : TypeRef → Prop
  | .builtin name => A.IsPath ⟨name⟩
  | .declared n => A.IsPath n

instance (A : Alphabet) : (t : TypeRef) → Decidable (t.IsRegular A)
  | .builtin name => inferInstanceAs (Decidable (A.IsPath ⟨name⟩))
  | .declared n => inferInstanceAs (Decidable (A.IsPath n))

/-- Whether the expression is a local variable or a member. -/
def Expr.isPlace : Expr → Bool
  | ident _ | member _ _ _ | staticMember _ _ => true
  | _ => false

/-- The names in the expression are names of the script, its operator is a binary one, and what it
assigns to is a local variable or a member. Its parts are not looked at. -/
def Expr.IsRegular (A : Alphabet) : Expr → Prop
  | ident name => A.IsIdentifier name
  | member _ name _ => A.IsName name.toList
  | staticMember owner name => owner.IsRegular A ∧ A.IsName name.toList
  | new type _ | classRef type | cast _ type => type.IsRegular A
  | assign target _ => target.isPlace = true
  | binary op _ _ => ∃ o ∈ Script.binaryOperators, o.symbol = op
  | literal _ | this | call _ _ | array _ => True

instance (A : Alphabet) : (e : Expr) → Decidable (e.IsRegular A)
  | .ident name => inferInstanceAs (Decidable (A.IsIdentifier name))
  | .member _ name _ => inferInstanceAs (Decidable (A.IsName name.toList))
  | .staticMember owner name => inferInstanceAs (Decidable (owner.IsRegular A ∧ A.IsName name.toList))
  | .new type _ | .classRef type | .cast _ type => inferInstanceAs (Decidable (type.IsRegular A))
  | .assign target _ => inferInstanceAs (Decidable (target.isPlace = true))
  | .binary op _ _ => inferInstanceAs (Decidable (∃ o ∈ Script.binaryOperators, o.symbol = op))
  | .literal _ | .this | .call _ _ | .array _ => isTrue trivial

namespace Expr

instance (P : Expr → Prop) [DecidablePred P] (e : Expr) : Decidable (e.Throughout P) :=
  inferInstanceAs (Decidable (∀ d ∈ e.parts, P d))

/-! ### Parentheses -/

theorem bare_enclosed (needed : Bool) (f : Form) : (enclosed needed f).bare = f.bare := by
  cases needed <;> rfl

end Expr

theorem Name.bare_tree (n : Name) : n.tree.bare = n.tree := by
  have hfold (rest : List String) (f : Form) (h : f.bare = f) :
      (rest.foldl Form.access f).bare = rest.foldl Form.access f := by
    induction rest generalizing f with
    | nil => exact h
    | cons segment rest ih => exact ih _ (by rw [Form.bare, h])
  unfold Name.tree
  split
  · rfl
  · exact hfold _ _ rfl

theorem Literal.bare_tree (v : Literal) : v.tree.bare = v.tree := by
  unfold Literal.tree
  split <;> rfl

namespace Expr

variable (s : Scope) (spelling : Name → String)

/-- The trees of expressions whose forms have their trees without parentheses. -/
theorem bare_formEach {es : List Expr} (h : ∀ e ∈ es, (e.form s spelling).bare = e.tree s spelling) :
    Form.bareEach (formEach s spelling es) = treeEach s spelling es := by
  rw [formEach_eq, treeEach_eq, Form.bareEach_eq, List.map_map]
  exact List.map_congr_left h

/-- Without its parentheses the form is the tree. -/
theorem bare_form (e : Expr) : (e.form s spelling).bare = e.tree s spelling := by
  induction e using Expr.induction with
  | literal v => exact v.bare_tree
  | this => rfl
  | ident name => rfl
  | member object name accessor ih =>
    cases accessor <;> simp [form, tree, Form.bare, Form.bareEach, bare_enclosed, ih]
  | staticMember owner name => simp [form, tree, Form.bare, TypeRef.tree, Name.bare_tree]
  | call callee args ih ihargs =>
    simp [form, tree, Form.bare, bare_enclosed, ih, bare_formEach s spelling ihargs]
  | new type args ihargs =>
    simp [form, tree, Form.bare, TypeRef.tree, Name.bare_tree, bare_formEach s spelling ihargs]
  | classRef type => simp [form, tree, TypeRef.tree, Name.bare_tree]
  | cast value type ih => simp [form, tree, Form.bare, Form.bareEach, TypeRef.tree, Name.bare_tree, ih]
  | assign target value ih ihobject ihvalue =>
    rcases accessor_or target with ⟨object, name, rfl⟩ | htarget
    · simp [form, tree, Form.bare, Form.bareEach, bare_enclosed, ihobject object name true rfl, ihvalue]
    · rw [form_assign s spelling htarget, tree_assign s spelling htarget, Form.bare, ih, ihvalue]
  | binary op left right ihleft ihright => simp [form, tree, Form.bare, bare_enclosed, ihleft, ihright]
  | array items ihitems => simp [form, tree, Form.bare, bare_formEach s spelling ihitems]

end Expr

end Lowering
