import Lowering.Proofs.Symbol.Lookup

/-! What is known after registering many declarations.

A name is known by the first declaration that has it (`find?_registerAll`), and a later one is
reported where it differs from that in more than its place (`mem_registerAll_errors`). Which names
are reported therefore does not depend on the order (`reported_iff`). -/
namespace Lowering

namespace Declaration

variable {d e : Declaration}

/-- The declaration without its place. -/
def placeless (d : Declaration) : Declaration := { d with location := none }

theorem sameDefinition_iff : d.sameDefinition e = true ↔ d.placeless = e.placeless := beq_iff_eq

theorem name_of_placeless (h : d.placeless = e.placeless) : d.name = e.name := by
  have hname := congrArg Declaration.name h
  exact hname

end Declaration

namespace Registry

variable {r : Registry} {ds : List Declaration} {d e known : Declaration} {n : Name}

/-- A declaration is new, or the same as the one that is known, or differs from it. -/
theorem register_cases (r : Registry) (d : Declaration) :
    (∃ h : r.find? d.name = none, r.register d = .ok (r.add d h, r.size)) ∨
      (∃ known i, r.find? d.name = some known ∧ known.placeless = d.placeless ∧
        r.register d = .ok (r, i)) ∨
      ∃ known, r.find? d.name = some known ∧ known.placeless ≠ d.placeless ∧
        r.register d = .error (.duplicateSymbol d.name known.location d.location) := by
  unfold register
  split
  next h => exact .inl ⟨find?_eq_none_of_id? h, rfl⟩
  next i h =>
    refine .inr ?_
    have hknown := find?_of_id? h
    generalize r.declarations.get ⟨i, lt_of_id? h⟩ = known at hknown
    by_cases hsame : known.sameDefinition d = true
    · rw [if_pos hsame]
      exact .inl ⟨known, i, hknown, Declaration.sameDefinition_iff.mp hsame, rfl⟩
    · rw [if_neg hsame]
      exact .inr ⟨known, hknown, mt Declaration.sameDefinition_iff.mpr hsame, rfl⟩

/-- The rest is registered where the first one is added, is known already, or is reported. -/
theorem registerAll_cons_cases (r : Registry) (d : Declaration) (rest : List Declaration) :
    (∃ h : r.find? d.name = none, r.registerAll (d :: rest) = (r.add d h).registerAll rest) ∨
      (∃ known, r.find? d.name = some known ∧ known.placeless = d.placeless ∧
        r.registerAll (d :: rest) = r.registerAll rest) ∨
      ∃ known, r.find? d.name = some known ∧ known.placeless ≠ d.placeless ∧
        r.registerAll (d :: rest) = ((r.registerAll rest).1,
          .duplicateSymbol d.name known.location d.location :: (r.registerAll rest).2) := by
  rw [registerAll]
  obtain ⟨hnew, hregister⟩ | ⟨known, i, hknown, hsame, hregister⟩ | ⟨known, hknown, hdiffers, hregister⟩ :=
    r.register_cases d
  · exact .inl ⟨hnew, by rw [hregister]⟩
  · exact .inr (.inl ⟨known, hknown, hsame, by rw [hregister]⟩)
  · exact .inr (.inr ⟨known, hknown, hdiffers, by rw [hregister]⟩)

/-- What repeats a known name is not found under any name. -/
theorem find?_skip (h : r.find? d.name = some known) (ds : List Declaration) (n : Name) :
    (r.declarations ++ d :: ds).find? (·.name = n) = (r.declarations ++ ds).find? (·.name = n) := by
  rw [List.find?_append, List.find?_append]
  by_cases hn : d.name = n
  · subst hn
    rw [show r.declarations.find? (·.name = d.name) = some known from h]
    rfl
  · rw [List.find?_cons_of_neg (by simpa using hn)]

/-- A name is known by the first declaration that has it. -/
theorem find?_registerAll (r : Registry) (ds : List Declaration) (n : Name) :
    (r.registerAll ds).1.find? n = (r.declarations ++ ds).find? (·.name = n) := by
  induction ds generalizing r with
  | nil =>
    rw [List.append_nil]
    rfl
  | cons d rest ih =>
    obtain ⟨hnew, hrest⟩ | ⟨known, hknown, -, hrest⟩ | ⟨known, hknown, -, hrest⟩ :=
      r.registerAll_cons_cases d rest
    · rw [hrest, ih, add, List.append_assoc, List.singleton_append]
    · rw [hrest, ih, find?_skip hknown]
    · rw [hrest, ih, find?_skip hknown]

/-- Nothing else is registered than what is given. -/
theorem mem_of_mem_registerAll (hd : d ∈ (empty.registerAll ds).1.declarations) : d ∈ ds := by
  have hfind := find?_eq_some.mpr ⟨hd, rfl⟩
  rw [find?_registerAll] at hfind
  exact List.mem_of_find?_eq_some hfind

/-- A declaration is reported where it differs from the first one of its name. -/
theorem mem_registerAll_errors (r : Registry) (ds : List Declaration) (error : Error) :
    error ∈ (r.registerAll ds).2 ↔
      ∃ d ∈ ds, ∃ known, (r.declarations ++ ds).find? (·.name = d.name) = some known ∧
        known.placeless ≠ d.placeless ∧ error = .duplicateSymbol d.name known.location d.location := by
  induction ds generalizing r with
  | nil => simp [registerAll]
  | cons d rest ih =>
    simp only [List.mem_cons, exists_eq_or_imp]
    obtain ⟨hnew, hrest⟩ | ⟨known, hknown, hsame, hrest⟩ | ⟨known, hknown, hdiffers, hrest⟩ :=
      r.registerAll_cons_cases d rest
    · have hself : (r.declarations ++ d :: rest).find? (·.name = d.name) = some d := by
        rw [List.find?_append, show r.declarations.find? (·.name = d.name) = none from hnew]
        simp
      rw [hrest, ih, add, List.append_assoc, List.singleton_append, hself]
      constructor
      · exact .inr
      · rintro (⟨known, hd, hdiffers, -⟩ | h)
        · exact absurd (congrArg Declaration.placeless (Option.some.inj hd).symm) hdiffers
        · exact h
    · simp only [find?_skip hknown]
      rw [hrest, ih]
      constructor
      · exact .inr
      · rintro (⟨known', hd, hdiffers, -⟩ | h)
        · rw [List.find?_append, show r.declarations.find? (·.name = d.name) = some known from hknown] at hd
          exact absurd (Option.some.inj hd ▸ hsame) hdiffers
        · exact h
    · simp only [find?_skip hknown]
      rw [hrest, List.mem_cons, ih]
      refine or_congr_left ?_
      rw [List.find?_append, show r.declarations.find? (·.name = d.name) = some known from hknown]
      simp [hdiffers]

/-- A name is reported exactly where two of its declarations differ in more than their places. -/
theorem reported_iff (ds : List Declaration) (n : Name) :
    (∃ first second, .duplicateSymbol n first second ∈ (empty.registerAll ds).2) ↔
      ∃ d ∈ ds, ∃ e ∈ ds, d.name = n ∧ e.name = n ∧ d.placeless ≠ e.placeless := by
  simp only [mem_registerAll_errors]
  constructor
  · rintro ⟨first, second, d, hd, known, hknown, hdiffers, herror⟩
    obtain ⟨rfl, -, -⟩ := Error.duplicateSymbol.inj herror
    exact ⟨known, List.mem_of_find?_eq_some hknown, d, hd, by simpa using List.find?_some hknown, rfl, hdiffers⟩
  · rintro ⟨d, hd, e, he, rfl, hname, hdiffers⟩
    obtain ⟨known, hknown⟩ : ∃ known, ds.find? (·.name = d.name) = some known :=
      Option.isSome_iff_exists.mp (List.find?_isSome.mpr ⟨d, hd, by simp⟩)
    -- one of the two differs from the first
    by_cases hsame : known.placeless = d.placeless
    · exact ⟨known.location, e.location, e, he, known, hname ▸ hknown, hsame ▸ hdiffers, by rw [hname]⟩
    · exact ⟨known.location, d.location, d, hd, known, hknown, hsame, rfl⟩

/-- Nothing is reported where the declarations of each name are the same. -/
theorem registerAll_errors_eq_nil (ds : List Declaration) :
    (empty.registerAll ds).2 = [] ↔ ∀ d ∈ ds, ∀ e ∈ ds, d.name = e.name → d.placeless = e.placeless := by
  constructor
  · intro hnil d hd e he hname
    by_contra hdiffers
    obtain ⟨first, second, hmem⟩ := (reported_iff ds d.name).mpr ⟨d, hd, e, he, rfl, hname.symm, hdiffers⟩
    rw [hnil] at hmem
    cases hmem
  · intro hsame
    refine List.eq_nil_iff_forall_not_mem.mpr fun error hmem => ?_
    obtain ⟨d, hd, known, hknown, hdiffers, -⟩ := (mem_registerAll_errors empty ds error).mp hmem
    exact hdiffers (hsame known (List.mem_of_find?_eq_some hknown) d hd (by simpa using List.find?_some hknown))

end Registry

/-- A program that has a name with two definitions is rejected for these; any other is as its
registry freezes. -/
theorem SymbolTable.ofProgram_eq (p : Program) (style : NameStyle) :
    ofProgram p style =
      if (Registry.empty.registerAll p.declarations).2 = [] then
        (Registry.empty.registerAll p.declarations).1.freeze style
      else .error (Registry.empty.registerAll p.declarations).2 := by
  unfold ofProgram Registry.registerProgram
  generalize Registry.empty.registerAll p.declarations = registered
  obtain ⟨r, errors⟩ := registered
  cases errors <;> rfl

/-- A program gets a table by registering all of it and freezing what is registered. -/
theorem SymbolTable.freeze_of_ofProgram {p : Program} {style : NameStyle} {t : SymbolTable}
    (h : ofProgram p style = .ok t) :
    (Registry.empty.registerAll p.declarations).2 = [] ∧
      (Registry.empty.registerAll p.declarations).1.freeze style = .ok t := by
  rw [ofProgram_eq] at h
  split at h
  next hnil => exact ⟨hnil, h⟩
  next => cases h

end Lowering
