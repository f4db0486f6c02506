import Lowering.Proofs.Symbol.Freezing
import Lowering.Proofs.Symbol.Registering
import Mathlib.Data.List.Perm.Basic

/-! Declarations in another order.

The position of a declaration decides its id, and which of several same declarations is kept. The
rest of a symbol can be said in terms of names: its references, its ancestors (`ancestors`) and so
its capabilities, and its rank among the names that flatten alike. So registries that know the same
declarations, up to places, freeze or fail together, and into tables that differ in no more than
ids and places (`Registry.Alike.freeze`). -/
namespace Lowering

open Relation

namespace Registry

/-- The registries know the same names, by declarations that differ in their places at most. -/
def Alike (r r' : Registry) : Prop :=
  ∀ n, (r'.find? n).map (·.placeless) = (r.find? n).map (·.placeless)

variable {r r' : Registry} {d d' : Declaration} {a b n : Name} {i i' : Nat}

theorem Alike.symm (h : r.Alike r') : r'.Alike r := fun n => (h n).symm

/-- Where no name has two definitions, neither the order of the declarations nor their places
matter. -/
theorem alike_of_perm {ds ds' : List Declaration}
    (hperm : (ds'.map (·.placeless)).Perm (ds.map (·.placeless))) (h : (empty.registerAll ds).2 = []) :
    (empty.registerAll ds').2 = [] ∧ (empty.registerAll ds).1.Alike (empty.registerAll ds').1 := by
  have hsame := (registerAll_errors_eq_nil ds).mp h
  have hfrom {ds ds' : List Declaration} (hperm : (ds'.map (·.placeless)).Perm (ds.map (·.placeless)))
      {d : Declaration} (hd : d ∈ ds') : ∃ e ∈ ds, e.placeless = d.placeless :=
    List.mem_map.mp (hperm.mem_iff.mp (List.mem_map_of_mem hd))
  refine ⟨(registerAll_errors_eq_nil ds').mpr fun d hd e he hname => ?_, fun n => ?_⟩
  · obtain ⟨d₀, hd₀, hplaceless⟩ := hfrom hperm hd
    obtain ⟨e₀, he₀, hplaceless'⟩ := hfrom hperm he
    rw [← hplaceless, ← hplaceless']
    refine hsame d₀ hd₀ e₀ he₀ ?_
    rw [Declaration.name_of_placeless hplaceless, hname, Declaration.name_of_placeless hplaceless']
  rw [find?_registerAll, find?_registerAll]
  show (ds'.find? _).map _ = (ds.find? _).map _
  cases hd : ds.find? (·.name = n) with
  | none =>
    have hnone : ds'.find? (·.name = n) = none := by
      refine List.find?_eq_none.mpr fun d' hd' => ?_
      obtain ⟨d, hmem, hplaceless⟩ := hfrom hperm hd'
      rw [← Declaration.name_of_placeless hplaceless]
      exact List.find?_eq_none.mp hd d hmem
    rw [hnone]
  | some d =>
    have hmem := List.mem_of_find?_eq_some hd
    have hname : d.name = n := by simpa using List.find?_some hd
    obtain ⟨e, he, hplaceless⟩ := hfrom hperm.symm hmem
    obtain ⟨d', hd'⟩ : ∃ d', ds'.find? (·.name = n) = some d' := by
      refine Option.isSome_iff_exists.mp (List.find?_isSome.mpr ⟨e, he, ?_⟩)
      simpa using (Declaration.name_of_placeless hplaceless).trans hname
    have hname' : d'.name = n := by simpa using List.find?_some hd'
    obtain ⟨e', he', hplaceless'⟩ := hfrom hperm (List.mem_of_find?_eq_some hd')
    rw [hd', Option.map_some, Option.map_some, ← hplaceless',
      hsame e' he' d hmem ((Declaration.name_of_placeless hplaceless').trans (hname'.trans hname.symm))]

/-! ### What keeps them from being frozen -/

theorem Alike.exists_mem (h : r.Alike r') (hd : d ∈ r.declarations) :
    ∃ d' ∈ r'.declarations, d'.placeless = d.placeless := by
  have hfind := h d.name
  rw [find?_eq_some.mpr ⟨hd, rfl⟩, Option.map_some, Option.map_eq_some_iff] at hfind
  obtain ⟨d', hd', hplaceless⟩ := hfind
  exact ⟨d', (find?_eq_some.mp hd').1, hplaceless⟩

theorem Alike.extends (h : r.Alike r') (hab : r.Extends a b) : r'.Extends a b := by
  obtain ⟨d, hd, hname, hbase⟩ := hab
  obtain ⟨d', hd', hplaceless⟩ := h.exists_mem hd
  refine ⟨d', hd', (Declaration.name_of_placeless hplaceless).trans hname, ?_⟩
  have hbases := congrArg Declaration.base hplaceless
  exact hbases.trans hbase

theorem Alike.resolved (h : r.Alike r') (hresolved : r.Resolved) : r'.Resolved := by
  intro d' hd' n hn
  obtain ⟨d, hd, hplaceless⟩ := h.symm.exists_mem hd'
  have hreferences := congrArg Declaration.references hplaceless
  have hn' : n ∈ d.placeless.references := hreferences ▸ hn
  obtain ⟨e, he, hname⟩ := hresolved d hd n hn'
  obtain ⟨e', he', hplaceless'⟩ := h.exists_mem he
  exact ⟨e', he', (Declaration.name_of_placeless hplaceless').trans hname⟩

theorem Alike.acyclic (h : r.Alike r') (hacyclic : r.Acyclic) : r'.Acyclic := by
  intro d' hd' hself
  obtain ⟨d, hd, hplaceless⟩ := h.symm.exists_mem hd'
  refine hacyclic d hd ?_
  rw [Declaration.name_of_placeless hplaceless]
  exact hself.lift id fun _ _ => h.symm.extends

theorem Alike.exists_freeze (h : r.Alike r') {style : NameStyle} (hfreeze : ∃ t, r.freeze style = .ok t) :
    ∃ t', r'.freeze style = .ok t' := by
  obtain ⟨hresolved, hacyclic⟩ := faults_eq_nil.mp ((Registry.exists_freeze style).mp hfreeze)
  exact (Registry.exists_freeze style).mpr (faults_eq_nil.mpr ⟨h.resolved hresolved, h.acyclic hacyclic⟩)

/-! ### Identifiers -/

theorem Alike.names_perm (h : r.Alike r') :
    (r'.declarations.map (·.name)).Perm (r.declarations.map (·.name)) := by
  have hsubset {r r' : Registry} (h : r.Alike r') :
      r.declarations.map (·.name) ⊆ r'.declarations.map (·.name) := by
    intro n hn
    obtain ⟨d, hd, rfl⟩ := List.mem_map.mp hn
    obtain ⟨d', hd', hplaceless⟩ := h.exists_mem hd
    exact List.mem_map.mpr ⟨d', hd', Declaration.name_of_placeless hplaceless⟩
  refine (List.perm_ext_iff_of_nodup r'.distinct r.distinct).mpr fun n => ?_
  exact ⟨fun hn => hsubset h.symm hn, fun hn => hsubset h hn⟩

theorem rank_eq (r : Registry) (d : Declaration) :
    r.rank d = (r.declarations.map (·.name)).countP fun n => n.flat = d.name.flat && decide (n < d.name) := by
  rw [List.countP_map]
  rfl

theorem Alike.outputName (h : r.Alike r') (hname : d'.name = d.name) (style : NameStyle) :
    r'.outputName style d' = r.outputName style d := by
  have hrank : r'.rank d' = r.rank d := by
    rw [rank_eq, rank_eq, h.names_perm.countP_eq, hname]
  unfold Registry.outputName
  rw [hrank, hname]

/-! ### Capabilities -/

/-- The base of a name, if both are declared. -/
def parent? (r : Registry) (n : Name) : Option Name :=
  ((r.find? n).map (·.base)).join.filter fun b => (r.find? b).isSome

/-- The bases above a name within a number of steps, nearest first. -/
def ancestors (r : Registry) : (steps : Nat) → Name → List Name
  | 0, _ => []
  | steps + 1, n =>
    match r.parent? n with
    | none => []
    | some b => b :: r.ancestors steps b

/-- The capabilities that a name has of its own. -/
def ownCapabilities (r : Registry) (n : Name) : Capabilities := ((r.find? n).map (·.capabilities)).getD default

theorem map_nameAt_id? (r : Registry) (n : Name) :
    (r.id? n).map r.nameAt = (some n).filter fun b => (r.find? b).isSome := by
  cases hid : r.id? n with
  | none =>
    have hnone : r.find? n = none := by
      cases hfind : r.find? n with
      | none => rfl
      | some d =>
        obtain ⟨hd, hname⟩ := find?_eq_some.mp hfind
        exact absurd hname (id?_eq_none hid hd)
    rw [Option.filter_some, hnone]
    rfl
  | some i =>
    obtain ⟨hi, hname⟩ := id?_eq_some hid
    obtain ⟨d, hd, -, hname'⟩ := exists_at hi
    have hsome : r.find? n = some d := find?_eq_some.mpr ⟨hd, hname'.symm.trans hname⟩
    rw [Option.filter_some, hsome, Option.map_some, hname]
    rfl

theorem map_nameAt_base? (hi : i < r.size) :
    (r.baseLinks.base? i).map r.nameAt = r.parent? (r.nameAt i) := by
  rw [base?_baseLinks, parent?, find?_nameAt hi]
  obtain ⟨d, -, hd, -⟩ := exists_at hi
  rw [hd, Option.bind_some, Option.map_some, Option.join_some]
  cases d.base with
  | none => rfl
  | some b => exact map_nameAt_id? r b

theorem lt_of_mem_above {steps j : Nat} (hj : j ∈ r.baseLinks.above steps i) : j < r.size := by
  induction steps generalizing i with
  | zero => cases hj
  | succ steps ih =>
    rw [BaseLinks.above] at hj
    cases hb : r.baseLinks.base? i with
    | none =>
      rw [hb] at hj
      cases hj
    | some b =>
      rw [hb] at hj
      obtain rfl | hj := List.mem_cons.mp hj
      · exact (lt_of_steps hb).2
      · exact ih hj

theorem map_nameAt_above (steps : Nat) (hi : i < r.size) :
    (r.baseLinks.above steps i).map r.nameAt = r.ancestors steps (r.nameAt i) := by
  induction steps generalizing i with
  | zero => rfl
  | succ steps ih =>
    rw [BaseLinks.above, ancestors, ← map_nameAt_base? hi]
    cases hb : r.baseLinks.base? i with
    | none => rfl
    | some b =>
      rw [Option.map_some]
      show r.nameAt b :: (r.baseLinks.above steps b).map r.nameAt = r.nameAt b :: r.ancestors steps (r.nameAt b)
      rw [ih (lt_of_steps hb).2]

/-- The capabilities at a position are those of its name and of the ancestors of the name. -/
theorem capabilitiesAt_eq (hi : i < r.size) :
    r.capabilitiesAt i =
      (r.ancestors r.size (r.nameAt i)).foldl (fun c n => c.union (r.ownCapabilities n))
        (r.ownCapabilities (r.nameAt i)) := by
  have hlength : r.baseLinks.length = r.size := List.length_map ..
  have hown {j : Nat} (hj : j < r.size) :
      (r.declarations[j]?.map (·.capabilities)).getD default = r.ownCapabilities (r.nameAt j) := by
    rw [ownCapabilities, find?_nameAt hj]
  rw [← map_nameAt_above r.size hi, List.foldl_map, ← hown hi, ← hlength]
  unfold capabilitiesAt
  refine List.foldl_ext _ _ _ fun c j hj => ?_
  rw [← hown (lt_of_mem_above hj)]

theorem Alike.map_find? (h : r.Alike r') {α : Type} (f : Declaration → α) (hf : ∀ d, f d.placeless = f d)
    (n : Name) : (r'.find? n).map f = (r.find? n).map f := by
  have hplaceless : f ∘ Declaration.placeless = f := funext hf
  rw [← hplaceless, ← Option.map_map, ← Option.map_map]
  exact congrArg (Option.map f) (h n)

theorem Alike.parent? (h : r.Alike r') : r'.parent? = r.parent? := by
  funext n
  have hsome : (fun b => (r'.find? b).isSome) = fun b => (r.find? b).isSome := by
    funext b
    have hfind := congrArg Option.isSome (h b)
    rwa [Option.isSome_map, Option.isSome_map] at hfind
  rw [Registry.parent?, Registry.parent?, h.map_find? (·.base) fun _ => rfl, hsome]

theorem Alike.ancestors (h : r.Alike r') (steps : Nat) (n : Name) :
    r'.ancestors steps n = r.ancestors steps n := by
  induction steps generalizing n with
  | zero => rfl
  | succ steps ih =>
    rw [Registry.ancestors, Registry.ancestors, h.parent?]
    cases r.parent? n with
    | none => rfl
    | some b => exact congrArg (b :: ·) (ih b)

theorem Alike.capabilitiesAt (h : r.Alike r') (hi : i < r.size) (hi' : i' < r'.size)
    (hname : r'.nameAt i' = r.nameAt i) : r'.capabilitiesAt i' = r.capabilitiesAt i := by
  have hsize : r'.size = r.size := by
    have hlength := h.names_perm.length_eq
    rwa [List.length_map, List.length_map] at hlength
  have hown : r'.ownCapabilities = r.ownCapabilities := by
    funext n
    rw [ownCapabilities, ownCapabilities, h.map_find? (·.capabilities) fun _ => rfl]
  rw [capabilitiesAt_eq hi, capabilitiesAt_eq hi', hname, hsize, hown, h.ancestors]

end Registry

/-! ### Tables -/

/-- The symbol without ids and without its place. -/
def Symbol.portable (s : Symbol) : Symbol :=
  { s with id := 0, declaration := s.declaration.placeless, base := none, interfaces := [] }

/-- The tables know the same names, by symbols that differ in ids and places at most. -/
structure SymbolTable.Alike (t t' : SymbolTable) : Prop where
  style : t'.style = t.style
  find? : ∀ n, (t'.find? n).map (·.portable) = (t.find? n).map (·.portable)

namespace Registry

variable {r r' : Registry} {d : Declaration} {i : Nat} {style : NameStyle} {t t' : SymbolTable}

/-- The tables of registries that know the same declarations differ in ids and places at most. -/
theorem Alike.freeze (h : r.Alike r') (ht : r.freeze style = .ok t) (ht' : r'.freeze style = .ok t') :
    t.Alike t' where
  style := by rw [eq_of_freeze ht, eq_of_freeze ht']
  find? := by
    intro n
    cases hs : t.find? n with
    | none =>
      cases hs' : t'.find? n with
      | none => rfl
      | some s' =>
        obtain ⟨d', i', hi', hname, -⟩ := (find?_of_freeze ht').mp hs'
        obtain ⟨d, hd, hplaceless⟩ := h.symm.exists_mem (List.mem_of_getElem? hi')
        have hknown := contains_of_freeze ht hd
        rw [Declaration.name_of_placeless hplaceless, hname, SymbolTable.contains, hs] at hknown
        cases hknown
    | some s =>
      obtain ⟨d, i, hi, rfl, rfl⟩ := (find?_of_freeze ht).mp hs
      obtain ⟨d', hd', hplaceless⟩ := h.exists_mem (List.mem_of_getElem? hi)
      obtain ⟨i', hi'⟩ := List.getElem?_of_mem hd'
      have hname := Declaration.name_of_placeless hplaceless
      have hcapabilities : r'.capabilitiesAt i' = r.capabilitiesAt i :=
        h.capabilitiesAt (List.getElem?_eq_some_iff.mp hi).1 (List.getElem?_eq_some_iff.mp hi').1
          ((nameAt_eq hi').trans (hname.trans (nameAt_eq hi).symm))
      rw [(find?_of_freeze ht').mpr ⟨d', i', hi', hname, rfl⟩, Option.map_some, Option.map_some]
      unfold symbol Symbol.portable
      rw [hplaceless, hcapabilities, h.outputName hname]

end Registry

/-- Programs whose declarations are the same but for their order and their places have tables that
are alike. -/
theorem SymbolTable.ofProgram_alike_of_placeless {p p' : Program} {style : NameStyle} {t : SymbolTable}
    (hperm : (p'.declarations.map (·.placeless)).Perm (p.declarations.map (·.placeless)))
    (ht : ofProgram p style = .ok t) : ∃ t', ofProgram p' style = .ok t' ∧ t.Alike t' := by
  obtain ⟨hnil, ht⟩ := freeze_of_ofProgram ht
  obtain ⟨hnil', halike⟩ := Registry.alike_of_perm hperm hnil
  obtain ⟨t', ht'⟩ := halike.exists_freeze ⟨t, ht⟩
  exact ⟨t', by rw [ofProgram_eq, if_pos hnil', ht'], halike.freeze ht ht'⟩

/-- The order of the declarations alone makes no difference either. -/
theorem SymbolTable.ofProgram_alike {p p' : Program} {style : NameStyle} {t : SymbolTable}
    (hperm : p'.declarations.Perm p.declarations) (ht : ofProgram p style = .ok t) :
    ∃ t', ofProgram p' style = .ok t' ∧ t.Alike t' :=
  ofProgram_alike_of_placeless (hperm.map _) ht

end Lowering
