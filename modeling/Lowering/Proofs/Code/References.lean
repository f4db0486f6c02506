import Lowering.Proofs.Code.Uses
import Lowering.Proofs.Outcome
import Mathlib.Data.List.Basic

/-! The references of code.

Code refers to the names that have to be registered, in the order of its text, and writing it
fails with the first of them that is not. The code of an expression refers to what the expression
refers to, in the order of evaluation; what it needs besides is the class that performs casts, where
there is a cast in it (`expression_written_or_first_unregistered`). -/
namespace Lowering

/-! ### References among uses -/

namespace Piece

theorem reference?_eq_some {p : Piece} {n : Name} : p.reference? = some n ↔ p = .name .reference n := by
  cases p with
  | verbatim text => simp [reference?]
  | name use m => cases use <;> simp [reference?]
  | quoted m => simp [reference?]

@[simp] theorem reference?_support (n : Name) : (name .support n).reference? = none := rfl

/-- Names that are referred to stand for themselves. -/
@[simp] theorem filterMap_reference? (names : List Name) :
    (names.map (.name .reference)).filterMap reference? = names := by
  rw [List.filterMap_map]
  exact List.filterMap_some

end Piece

/-- Verbatim text refers to nothing, so only uses count. -/
theorem Code.references_eq (c : Code) : c.references = c.uses.filterMap Piece.reference? := by
  rw [references, uses, List.filterMap_filter]
  refine List.filterMap_congr fun p _ => ?_
  cases p <;> rfl

theorem Layout.references_eq (l : Layout) : l.references = l.uses.filterMap Piece.reference? := by
  rw [references, uses, List.filterMap_flatMap]
  refine List.flatMap_congr fun step _ => ?_
  cases step with
  | line code => exact code.references_eq
  | blank => rfl
  | indent => rfl
  | dedent => rfl

theorem Layout.mem_references {l : Layout} {n : Name} : n ∈ l.references ↔ .name .reference n ∈ l.uses := by
  simp [references_eq, List.mem_filterMap, Piece.reference?_eq_some]

/-! ### Expressions -/

namespace Expr

variable (s : Scope)

mutual

/-- The code of an expression refers to the classes that the expression refers to, in the same
order. -/
theorem references_uses (e : Expr) :
    (Code.uses (e.code s)).filterMap Piece.reference? = e.references := by
  match e with
  | literal _ | this | ident _ => rfl
  | member object name accessor =>
    have hobject := references_uses object
    cases accessor <;> simpa [code, references] using hobject
  | staticMember owner name => simp [code, references, -List.filterMap_map]
  | call callee args =>
    have hcallee := references_uses callee
    have hargs := references_usesEach args
    simp [code, references, hcallee, hargs]
  | new type args =>
    have hargs := references_usesEach args
    simp [code, references, hargs, -List.filterMap_map]
  | classRef type => simp [code, references, -List.filterMap_map]
  | cast value type =>
    -- The helper of the cast stands before the value, but is none of the references.
    have hvalue := references_uses value
    simp [code, references, hvalue, List.filterMap_cons, -List.filterMap_map]
  | assign target value =>
    have htarget := references_uses target
    have hvalue := references_uses value
    rw [uses_assign, List.filterMap_append, htarget, hvalue, references]
  | binary op left right =>
    have hleft := references_uses left
    have hright := references_uses right
    simp [code, references, hleft, hright]
  | array items =>
    have hitems := references_usesEach items
    simp [code, references, hitems]

theorem references_usesEach (es : List Expr) :
    ((codeEach s es).flatMap Code.uses).filterMap Piece.reference? = referencesAll es := by
  match es with
  | [] => rfl
  | e :: rest =>
    have he := references_uses e
    have hrest := references_usesEach rest
    rw [codeEach, List.flatMap_cons, List.filterMap_append, he, hrest, referencesAll]

end

theorem references_code (e : Expr) : Code.references (e.code s) = e.references :=
  (Code.references_eq _).trans (references_uses s e)

end Expr

/-! ### Writing -/

namespace SymbolTable

variable {t : SymbolTable} {owner : Name} {names : List Name} {c : Code} {err : Error}

theorem checkReferences_eq_ok :
    t.checkReferences owner names = .ok () ↔ ∀ n ∈ names, t.contains n = true := by
  unfold checkReferences
  cases hfind : names.find? fun n => !t.contains n with
  | none =>
    have hall := List.find?_eq_none.mp hfind
    simpa using hall
  | some n =>
    have hn : t.contains n = false := by simpa using List.find?_some hfind
    refine ⟨nofun, fun hall => ?_⟩
    rw [hall n (List.mem_of_find?_eq_some hfind)] at hn
    cases hn

/-- The names before the one at fault are registered. -/
theorem checkReferences_eq_error :
    t.checkReferences owner names = .error err ↔
      ∃ before n after, names = before ++ n :: after ∧ (∀ m ∈ before, t.contains m = true) ∧
        t.contains n = false ∧ err = .unresolvedSymbol n owner none := by
  have hfirst (n : Name) : names.find? (fun n => !t.contains n) = some n ↔
      ∃ before after, names = before ++ n :: after ∧ (∀ m ∈ before, t.contains m = true) ∧
        t.contains n = false := by
    rw [List.find?_eq_some_iff_append]
    simp only [Bool.not_eq_true', Bool.not_not]
    grind
  unfold checkReferences
  cases hfind : names.find? fun n => !t.contains n with
  | none =>
    refine ⟨nofun, fun hright => ?_⟩
    obtain ⟨before, n, after, hnames, hbefore, hn, -⟩ := hright
    have hsome := (hfirst n).mpr ⟨before, after, hnames, hbefore, hn⟩
    rw [hfind] at hsome
    cases hsome
  | some n =>
    constructor
    · intro h
      obtain ⟨before, after, hnames, hbefore, hn⟩ := (hfirst n).mp hfind
      exact ⟨before, n, after, hnames, hbefore, hn, (Except.error.inj h).symm⟩
    · intro hright
      obtain ⟨before, m, after, hnames, hbefore, hm, rfl⟩ := hright
      have hsome := (hfirst m).mpr ⟨before, after, hnames, hbefore, hm⟩
      obtain rfl := Option.some.inj (hfind.symm.trans hsome)
      rfl

/-- Code whose references are registered is written. -/
theorem write_eq (owner : Name) (h : ∀ n ∈ c.references, t.contains n = true) :
    t.write owner c = .ok (c.text t.spelling) :=
  bind_eq_ok.mpr ⟨(), checkReferences_eq_ok.mpr h, rfl⟩

theorem exists_write : (∃ text, t.write owner c = .ok text) ↔ ∀ n ∈ c.references, t.contains n = true := by
  constructor
  · intro h
    obtain ⟨text, htext⟩ := h
    obtain ⟨_, hcheck, -⟩ := bind_eq_ok.mp htext
    exact checkReferences_eq_ok.mp hcheck
  · exact fun h => ⟨_, write_eq owner h⟩

theorem write_eq_error :
    t.write owner c = .error err ↔ t.checkReferences owner c.references = .error err := by
  refine bind_eq_error.trans ⟨fun h => ?_, .inl⟩
  obtain h | ⟨_, -, h⟩ := h
  · exact h
  · cases h

end SymbolTable

/-- **An expression is written exactly when all classes are registered to which it refers, and else
fails with the first of them that is not, in the order of evaluation. Its code asks for a class of
the runtime exactly when there is a cast in the expression, and then for the one that performs
casts.** -/
theorem expression_written_or_first_unregistered (t : SymbolTable) (s : Scope) (e : Expr) :
    ((∃ text, t.write s.owner (e.code s) = .ok text) ↔ ∀ n ∈ e.references, t.contains n = true) ∧
      (∀ err, t.write s.owner (e.code s) = .error err ↔
        ∃ before n after, e.references = before ++ n :: after ∧
          (∀ m ∈ before, t.contains m = true) ∧ t.contains n = false ∧
          err = .unresolvedSymbol n s.owner none) ∧
      ∀ n, .name .support n ∈ e.code s ↔ e.hasCast = true ∧ n = s.languageHelper := by
  refine ⟨?_, fun err => ?_, fun n => ?_⟩
  · rw [SymbolTable.exists_write, e.references_code]
  · rw [SymbolTable.write_eq_error, e.references_code, SymbolTable.checkReferences_eq_error]
  · have huse : .name .support n ∈ e.code s ↔ .name .support n ∈ Code.uses (e.code s) := by
      simp [Code.uses, Piece.isUse]
    rw [huse, Expr.mem_uses_code, Expr.uses, Expr.mem_usesOf]
    simp

end Lowering
