import Lowering.Output.Constructor
import Lowering.Proofs.Code.Uses
import Lowering.Proofs.Instruction.Nesting

/-! The names in encoded trees.

An encoded tree uses the types of its instructions and what the expressions of their
properties use; counts, markers and texts use none. The root has no type of its own. -/
namespace Lowering

variable (s : Scope) {x : Piece}

/-- What elements use as code. -/
def tokenUses (tokens : List (Token Name)) : List Piece :=
  tokens.flatMap fun t => Code.uses (t.code s)

/-- What expressions use as code. -/
def exprUses (es : List Expr) : List Piece := es.flatMap fun e => Code.uses (e.code s)

@[simp] theorem exprUses_nil : exprUses s [] = [] := rfl

@[simp] theorem exprUses_append (es es' : List Expr) :
    exprUses s (es ++ es') = exprUses s es ++ exprUses s es' := List.flatMap_append

theorem exprUses_flatMap {α : Type} (items : List α) (es : α → List Expr) :
    exprUses s (items.flatMap es) = items.flatMap fun a => exprUses s (es a) := List.flatMap_assoc

/-- What an instruction uses besides what is nested in it. -/
def Instruction.uses (i : Instruction) : List Piece := .name .support i.target :: exprUses s i.exprs

/-! ### Elements -/

@[simp] theorem tokenUses_nil : tokenUses s [] = [] := rfl

@[simp] theorem tokenUses_cons (t : Token Name) (rest : List (Token Name)) :
    tokenUses s (t :: rest) = Code.uses (t.code s) ++ tokenUses s rest := rfl

@[simp] theorem tokenUses_append (ts us : List (Token Name)) :
    tokenUses s (ts ++ us) = tokenUses s ts ++ tokenUses s us := List.flatMap_append

theorem Token.codeEach_eq (items : List (Token Name)) :
    Token.code.codeEach s items = items.map (·.code s) := by
  induction items with
  | nil => rfl
  | cons t rest ih => rw [Token.code.codeEach, ih, List.map_cons]

/-- An array uses what its items use. -/
@[simp] theorem Token.uses_array (items : List (Token Name)) :
    Code.uses ((Token.array items).code s) = tokenUses s items := by
  rw [Token.code, Code.uses_between, Code.uses_joined, Token.codeEach_eq, List.flatMap_map]
  rfl

@[simp] theorem tokenUses_identity (d : Identity) : tokenUses s d.tokens = [] := rfl

theorem tokenUses_flatMap {α : Type} (items : List α) (tokens : α → List (Token Name)) :
    tokenUses s (items.flatMap tokens) = items.flatMap fun a => tokenUses s (tokens a) :=
  List.flatMap_assoc

@[simp] theorem tokenUses_styles (styles : List Style) : tokenUses s (styleTokens styles) = [] := by
  show tokenUses s (styles.flatMap _) = []
  rw [tokenUses_flatMap]
  exact List.flatMap_eq_nil_iff.mpr fun _ _ => rfl

@[simp] theorem tokenUses_listeners (listeners : List Listener) :
    tokenUses s (listenerTokens listeners) = [] := by
  show tokenUses s (listeners.flatMap _) = []
  rw [tokenUses_flatMap]
  exact List.flatMap_eq_nil_iff.mpr fun _ _ => rfl

@[simp] theorem tokenUses_content (items : List (Token Name)) :
    tokenUses s [contentToken items] = tokenUses s items := by
  unfold contentToken
  split
  next h =>
    rw [List.isEmpty_iff.mp h]
    rfl
  next => simp

/-! ### Instructions -/

namespace Instruction

theorem tokenUses_encodeAll (is : List Instruction) :
    tokenUses s (encodeAll id is) = is.flatMap fun i => tokenUses s (i.encode id) := by
  induction is with
  | nil => rfl
  | cons i rest ih => rw [encodeAll, tokenUses_append, ih, List.flatMap_cons]

/-- A property uses what its expression or its nested nodes use. -/
theorem tokenUses_encodeProperties_cons (name : String) (value : InstructionValue)
    (rest : List (String × InstructionValue)) :
    tokenUses s (encodeProperties id ((name, value) :: rest)) =
      exprUses s value.expression?.toList ++
        (value.children.flatMap fun c => tokenUses s (c.encode id)) ++
        tokenUses s (encodeProperties id rest) := by
  cases value with
  | literal value => rfl
  | expression value =>
    show Code.uses (value.code s) ++ tokenUses s (encodeProperties id rest) = _
    simp [exprUses, InstructionValue.expression?, InstructionValue.children]
  | node child =>
    show Code.uses ((Token.array (child.encode id)).code s) ++ tokenUses s (encodeProperties id rest) = _
    rw [Token.uses_array]
    simp [exprUses, InstructionValue.expression?, InstructionValue.children]
  | nodes children =>
    show Code.uses ((Token.array (encodeAll id children)).code s) ++
      tokenUses s (encodeProperties id rest) = _
    rw [Token.uses_array, tokenUses_encodeAll]
    simp [exprUses, InstructionValue.expression?, InstructionValue.children]

theorem mem_tokenUses_encodeProperties (ps : List (String × InstructionValue)) :
    x ∈ tokenUses s (encodeProperties id ps) ↔
      x ∈ exprUses s (ps.filterMap (·.2.expression?)) ∨
        ∃ c ∈ ps.flatMap (·.2.children), x ∈ tokenUses s (c.encode id) := by
  induction ps with
  | nil => simp [encodeProperties, exprUses]
  | cons p rest ih =>
    obtain ⟨name, value⟩ := p
    have hexprs : exprUses s (((name, value) :: rest).filterMap (·.2.expression?)) =
        exprUses s value.expression?.toList ++ exprUses s (rest.filterMap (·.2.expression?)) := by
      cases hvalue : value.expression? <;> simp [hvalue, exprUses]
    rw [tokenUses_encodeProperties_cons, List.flatMap_cons, hexprs]
    simp only [List.mem_append, ih, List.mem_flatMap, or_and_right, exists_or]
    rw [or_or_or_comm]

/-- A nested node uses its type and what its properties and its content use. -/
theorem tokenUses_encode (i : Instruction) :
    tokenUses s (i.encode id) = .name .support i.target ::
      (tokenUses s (encodeProperties id i.properties) ++
        i.content.flatMap fun c => tokenUses s (c.encode id)) := by
  obtain ⟨node, target, identity, properties, styles, listeners, content⟩ := i
  have hidentity : tokenUses s (identity.toList.flatMap Identity.tokens) = [] := by
    cases identity <;> simp
  rw [encode]
  show .name .support target :: tokenUses s (_ ++ _ ++ _ ++ _ ++ [_]) = _
  simp only [tokenUses_append, hidentity, tokenUses_styles, tokenUses_listeners, tokenUses_content,
    tokenUses_encodeAll, List.nil_append, List.append_nil]

/-- A nested node uses what the instructions use that it lists. -/
theorem mem_tokenUses_encode (i : Instruction) :
    x ∈ tokenUses s (i.encode id) ↔ ∃ j ∈ i.flatten, x ∈ j.uses s := by
  induction i using nesting with
  | step i ih =>
    have hself : x ∈ tokenUses s (i.encode id) ↔
        x ∈ i.uses s ∨ ∃ c ∈ i.children, x ∈ tokenUses s (c.encode id) := by
      rw [tokenUses_encode, List.mem_cons, List.mem_append, mem_tokenUses_encodeProperties, uses,
        List.mem_cons, children]
      simp only [List.mem_append, or_and_right, exists_or, List.mem_flatMap, exprs, or_assoc]
    rw [hself, flatten_eq]
    simp only [List.mem_cons, exists_eq_or_imp, List.mem_flatMap]
    refine or_congr Iff.rfl ?_
    constructor
    · intro hright
      obtain ⟨c, hc, hx⟩ := hright
      obtain ⟨j, hj, hx⟩ := (ih c hc).mp hx
      exact ⟨j, ⟨c, hc, hj⟩, hx⟩
    · intro hright
      obtain ⟨j, ⟨c, hc, hj⟩, hx⟩ := hright
      exact ⟨c, hc, (ih c hc).mpr ⟨j, hj, hx⟩⟩

/-- The root uses what its expressions use and what is nested in it. -/
theorem mem_tokenUses_encodeRoot (i : Instruction) :
    x ∈ tokenUses s (i.encodeRoot id) ↔
      x ∈ exprUses s i.exprs ∨ ∃ j ∈ i.children.flatMap flatten, x ∈ j.uses s := by
  have hidentity : tokenUses s (i.identity.toList.flatMap Identity.tokens) = [] := by
    cases i.identity <;> simp
  have hroot : tokenUses s (i.encodeRoot id) =
      tokenUses s (encodeProperties id (i.properties ++ i.rootContent)) := by
    rw [encodeRoot]
    show tokenUses s (_ ++ _ ++ _ ++ _) = _
    simp only [tokenUses_append, hidentity, tokenUses_styles, tokenUses_listeners, List.nil_append,
      List.append_nil]
  rw [hroot, mem_tokenUses_encodeProperties, List.filterMap_append, rootContent_exprs,
    List.append_nil, List.flatMap_append, rootContent_children]
  refine or_congr Iff.rfl ?_
  simp only [mem_tokenUses_encode, List.mem_flatMap, children]
  constructor
  · intro hright
    obtain ⟨c, hc, j, hj, hx⟩ := hright
    exact ⟨j, ⟨c, hc, hj⟩, hx⟩
  · intro hright
    obtain ⟨j, ⟨c, hc, hj⟩, hx⟩ := hright
    exact ⟨c, hc, j, hj, hx⟩

end Instruction

end Lowering
