import Lowering.Symbol.Table
import Mathlib.Data.List.Nodup

/-! Looking up declarations and symbols.

In a registry a name, its position and its declaration determine each other, since no name is
there twice. A frozen table has the symbol of a declaration under the name of the declaration, and
nothing under any other name (`find?_of_freeze`). -/
namespace Lowering

theorem SymbolTable.name_of_find? {t : SymbolTable} {n : Name} {s : Symbol} (h : t.find? n = some s) :
    s.name = n := by
  simpa using List.find?_some h

/-- A name that is known is spelled with the identifier of its symbol. -/
theorem SymbolTable.spelling_of_find? {t : SymbolTable} {n : Name} {s : Symbol} (h : t.find? n = some s) :
    t.spelling n = s.outputName := by
  rw [spelling, outputName?, h]
  rfl

/-- A name that is not known stands for itself. -/
theorem SymbolTable.spelling_of_unknown {t : SymbolTable} {n : Name} (hn : t.contains n = false) :
    t.spelling n = t.style.plain n := by
  have hnone : t.outputName? n = none :=
    Option.map_eq_none_iff.mpr (Option.isSome_eq_false_iff.mp hn |> Option.isNone_iff_eq_none.mp)
  rw [spelling, hnone]
  rfl

namespace Registry

variable {r : Registry} {d e : Declaration} {n : Name} {i j : Nat}

theorem eq_of_name_eq (hd : d ∈ r.declarations) (he : e ∈ r.declarations) (h : d.name = e.name) :
    d = e :=
  List.inj_on_of_nodup_map r.distinct hd he h

theorem find?_eq_some : r.find? n = some d ↔ d ∈ r.declarations ∧ d.name = n := by
  constructor
  · exact fun h => ⟨List.mem_of_find?_eq_some h, by simpa using List.find?_some h⟩
  · rintro ⟨hd, rfl⟩
    cases hfind : r.find? d.name with
    | none => exact absurd (List.mem_map_of_mem hd) (find?_eq_none hfind)
    | some e =>
      have hsame : e.name = d.name := by simpa using List.find?_some hfind
      rw [eq_of_name_eq (List.mem_of_find?_eq_some hfind) hd hsame]

/-! ### Positions -/

theorem nameAt_eq (h : r.declarations[i]? = some d) : r.nameAt i = d.name := by
  rw [nameAt, h]
  rfl

theorem exists_at (h : i < r.size) : ∃ d ∈ r.declarations, r.declarations[i]? = some d ∧ r.nameAt i = d.name := by
  have hget := List.getElem?_eq_getElem h
  exact ⟨r.declarations[i], List.getElem_mem h, hget, nameAt_eq hget⟩

theorem nameAt_inj (hi : i < r.size) (hj : j < r.size) (h : r.nameAt i = r.nameAt j) : i = j := by
  obtain ⟨d, hd, hdi, hname⟩ := exists_at hi
  obtain ⟨e, he, hej, hname'⟩ := exists_at hj
  obtain rfl := eq_of_name_eq hd he (hname.symm.trans (h.trans hname'))
  have hnodup := List.Nodup.of_map _ r.distinct
  exact (List.getElem?_inj hi hnodup).mp (hdi.trans hej.symm)

theorem find?_nameAt (hi : i < r.size) : r.find? (r.nameAt i) = r.declarations[i]? := by
  obtain ⟨d, hd, hdi, hname⟩ := exists_at hi
  rw [hdi, hname]
  exact find?_eq_some.mpr ⟨hd, rfl⟩

theorem id?_eq_some (h : r.id? n = some i) : i < r.size ∧ r.nameAt i = n := by
  rw [id?_eq] at h
  obtain ⟨hlt, hname, -⟩ := List.findIdx?_eq_some_iff_getElem.mp h
  refine ⟨hlt, ?_⟩
  rw [nameAt_eq (List.getElem?_eq_getElem hlt)]
  exact of_decide_eq_true hname

theorem id?_eq_none (h : r.id? n = none) (hd : d ∈ r.declarations) : d.name ≠ n := by
  rw [id?_eq] at h
  exact of_decide_eq_false (List.findIdx?_eq_none_iff.mp h d hd)

/-- The id of a name is the position of its declaration. -/
theorem id?_eq_some_iff : r.id? n = some i ↔ ∃ d, r.declarations[i]? = some d ∧ d.name = n := by
  constructor
  · intro h
    obtain ⟨hlt, hname⟩ := id?_eq_some h
    obtain ⟨d, -, hd, hname'⟩ := exists_at hlt
    exact ⟨d, hd, hname'.symm.trans hname⟩
  · rintro ⟨d, hd, rfl⟩
    cases hid : r.id? d.name with
    | none => exact absurd rfl (id?_eq_none hid (List.mem_of_getElem? hd))
    | some j =>
      obtain ⟨hlt, hname⟩ := id?_eq_some hid
      have hi : i < r.size := (List.getElem?_eq_some_iff.mp hd).1
      rw [nameAt_inj hlt hi (hname.trans (nameAt_eq hd).symm)]

/-- A name is found where its id leads. -/
theorem find?_of_id? (h : r.id? n = some i) :
    r.find? n = some (r.declarations.get ⟨i, lt_of_id? h⟩) := by
  obtain ⟨d, hd, hname⟩ := id?_eq_some_iff.mp h
  obtain ⟨hlt, rfl⟩ := List.getElem?_eq_some_iff.mp hd
  exact find?_eq_some.mpr ⟨List.getElem_mem hlt, hname⟩

/-! ### Frozen tables -/

section
variable {style : NameStyle} {t : SymbolTable} {s : Symbol}

theorem eq_of_freeze (h : r.freeze style = .ok t) :
    t = ⟨r.declarations.zipIdx.map fun (d, i) => r.symbol style d i, style⟩ := by
  unfold freeze at h
  split at h
  · exact (Except.ok.inj h).symm
  · exact absurd h (by simp)

theorem names_of_freeze (h : r.freeze style = .ok t) :
    t.symbols.map (·.name) = r.declarations.map (·.name) := by
  rw [eq_of_freeze h, List.map_map]
  calc r.declarations.zipIdx.map (fun x => x.1.name)
      = (r.declarations.zipIdx.map (·.1)).map (·.name) := (List.map_map ..).symm
    _ = r.declarations.map (·.name) := by rw [List.zipIdx_map_fst]

/-- A frozen table knows the symbol of each declaration by its name, and nothing else. -/
theorem find?_of_freeze (h : r.freeze style = .ok t) :
    t.find? n = some s ↔ ∃ d i, r.declarations[i]? = some d ∧ d.name = n ∧ r.symbol style d i = s := by
  have hsymbol {s : Symbol} (hs : t.find? n = some s) :
      ∃ d i, r.declarations[i]? = some d ∧ d.name = n ∧ r.symbol style d i = s := by
    have hmem := List.mem_of_find?_eq_some hs
    rw [eq_of_freeze h] at hmem
    obtain ⟨⟨d, i⟩, hd, rfl⟩ := List.mem_map.mp hmem
    exact ⟨d, i, List.mem_zipIdx_iff_getElem?.mp hd, SymbolTable.name_of_find? hs, rfl⟩
  refine ⟨hsymbol, ?_⟩
  rintro ⟨d, i, hd, rfl, rfl⟩
  have hname : d.name ∈ t.symbols.map (·.name) := by
    rw [names_of_freeze h]
    exact List.mem_map_of_mem (List.mem_of_getElem? hd)
  obtain ⟨s, hs, hsname⟩ := List.mem_map.mp hname
  obtain ⟨s', hfind⟩ : ∃ s', t.find? d.name = some s' :=
    Option.isSome_iff_exists.mp (List.find?_isSome.mpr ⟨s, hs, by simpa using hsname⟩)
  obtain ⟨e, j, he, hsame, rfl⟩ := hsymbol hfind
  obtain rfl := eq_of_name_eq (List.mem_of_getElem? he) (List.mem_of_getElem? hd) hsame
  have hij : j = i := nameAt_inj (List.getElem?_eq_some_iff.mp he).1 (List.getElem?_eq_some_iff.mp hd).1
    ((nameAt_eq he).trans (nameAt_eq hd).symm)
  rw [hfind, hij]

theorem contains_of_freeze (h : r.freeze style = .ok t) (hd : d ∈ r.declarations) :
    t.contains d.name := by
  obtain ⟨i, hi⟩ := List.getElem?_of_mem hd
  exact Option.isSome_iff_exists.mpr ⟨_, (find?_of_freeze h).mpr ⟨d, i, hi, rfl, rfl⟩⟩

theorem exists_of_contains (h : r.freeze style = .ok t) (hn : t.contains n) :
    ∃ d ∈ r.declarations, d.name = n := by
  obtain ⟨s, hs⟩ := Option.isSome_iff_exists.mp hn
  obtain ⟨d, i, hd, hname, -⟩ := (find?_of_freeze h).mp hs
  exact ⟨d, List.mem_of_getElem? hd, hname⟩

/-- A frozen table gives each registered name the identifier of its declaration. -/
theorem outputName?_of_freeze (h : r.freeze style = .ok t) (hd : d ∈ r.declarations) :
    t.outputName? d.name = some (r.outputName style d) := by
  obtain ⟨i, hi⟩ := List.getElem?_of_mem hd
  rw [SymbolTable.outputName?, (find?_of_freeze h).mpr ⟨d, i, hi, rfl, rfl⟩]
  rfl

end

end Registry

end Lowering
