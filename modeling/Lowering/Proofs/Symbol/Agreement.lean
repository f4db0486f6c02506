import Lowering.Proofs.Symbol.Lookup

/-! Tables that differ in identifiers alone.

Two tables agree on some names when they are equal except for the identifiers of the
others. Such tables hold the same names and resolve those they agree on to the same
symbols. Giving one name another identifier leaves a table that agrees with the first on
every other name. -/
namespace Lowering

/-- The symbol without its identifier. -/
def Symbol.unnamed (s : Symbol) : Symbol := { s with outputName := "" }

theorem Symbol.eq_of_unnamed {a b : Symbol} (h : a.unnamed = b.unnamed)
    (hname : a.outputName = b.outputName) : a = b := by
  cases a
  cases b
  simp_all [unnamed]

namespace SymbolTable

/-- The table without its identifiers. -/
def unnamed (t : SymbolTable) : SymbolTable := ⟨t.symbols.map (·.unnamed), t.style⟩

/-- The tables are equal except for the identifiers of names that are not kept. -/
structure AgreesOn (t t' : SymbolTable) (kept : Name → Prop) : Prop where
  unnamed : t'.unnamed = t.unnamed
  identifiers : ∀ n, kept n → t'.outputName? n = t.outputName? n

/-- The table with an identifier of its own for one name. -/
def rename (t : SymbolTable) (n : Name) (identifier : String) : SymbolTable where
  symbols := t.symbols.map fun s => if s.name = n then { s with outputName := identifier } else s
  style := t.style

variable {t t' : SymbolTable} {kept : Name → Prop} {n : Name}

theorem find?_unnamed (t : SymbolTable) (n : Name) :
    t.unnamed.find? n = (t.find? n).map (·.unnamed) :=
  List.find?_map

/-! ### Tables that agree -/

theorem AgreesOn.mono {kept' : Name → Prop} (h : t.AgreesOn t' kept) (hkept : ∀ n, kept' n → kept n) :
    t.AgreesOn t' kept' :=
  ⟨h.unnamed, fun n hn => h.identifiers n (hkept n hn)⟩

theorem AgreesOn.style (h : t.AgreesOn t' kept) : t'.style = t.style := by
  show t'.unnamed.style = t.unnamed.style
  rw [h.unnamed]

theorem AgreesOn.find?_unnamed (h : t.AgreesOn t' kept) (n : Name) :
    (t'.find? n).map (·.unnamed) = (t.find? n).map (·.unnamed) := by
  rw [← SymbolTable.find?_unnamed, ← SymbolTable.find?_unnamed, h.unnamed]

theorem AgreesOn.contains (h : t.AgreesOn t' kept) : t'.contains = t.contains := by
  funext n
  have hfind := congrArg Option.isSome (h.find?_unnamed n)
  rw [Option.isSome_map, Option.isSome_map] at hfind
  exact hfind

/-- A kept name means the same symbol. -/
theorem AgreesOn.find? (h : t.AgreesOn t' kept) (hn : kept n) : t'.find? n = t.find? n := by
  have hfind := h.find?_unnamed n
  have hname := h.identifiers n hn
  unfold outputName? at hname
  cases h' : t'.find? n with
  | none => cases ht : t.find? n <;> simp_all
  | some s' =>
    cases ht : t.find? n with
    | none => simp_all
    | some s =>
      rw [h', ht, Option.map_some, Option.map_some, Option.some.injEq] at hfind hname
      rw [Symbol.eq_of_unnamed hfind hname]

/-- A kept name is spelled alike, and so is one that is not registered. -/
theorem AgreesOn.spelling (h : t.AgreesOn t' kept) (hn : t.contains n = true → kept n) :
    t'.spelling n = t.spelling n := by
  cases hc : t.contains n with
  | true => rw [SymbolTable.spelling, SymbolTable.spelling, h.style, h.identifiers n (hn hc)]
  | false => rw [spelling_of_unknown hc, spelling_of_unknown (h.contains ▸ hc), h.style]

/-! ### Renaming -/

theorem find?_rename (t : SymbolTable) (n m : Name) (identifier : String) :
    (t.rename n identifier).find? m = (t.find? m).map fun s =>
      if s.name = n then { s with outputName := identifier } else s := by
  unfold find? rename
  rw [List.find?_map]
  congr 2
  funext s
  simp only [Function.comp_apply]
  split <;> rfl

theorem rename_agrees (t : SymbolTable) (n : Name) (identifier : String) :
    t.AgreesOn (t.rename n identifier) (· ≠ n) where
  unnamed := by
    unfold SymbolTable.unnamed rename
    rw [List.map_map]
    congr 1
    refine List.map_congr_left fun s _ => ?_
    simp only [Function.comp_apply]
    split <;> rfl
  identifiers := by
    intro m hm
    unfold outputName?
    rw [find?_rename]
    cases hfind : t.find? m with
    | none => rfl
    | some s =>
      have hname : s.name ≠ n := name_of_find? hfind ▸ hm
      rw [Option.map_some, if_neg hname]

/-- A registered name gets the identifier. -/
theorem spelling_rename (h : t.contains n = true) (identifier : String) :
    (t.rename n identifier).spelling n = identifier := by
  obtain ⟨s, hs⟩ := Option.isSome_iff_exists.mp h
  have hrenamed : (t.rename n identifier).find? n = some { s with outputName := identifier } := by
    rw [find?_rename, hs, Option.map_some, if_pos (name_of_find? hs)]
  exact spelling_of_find? hrenamed

end SymbolTable

end Lowering
