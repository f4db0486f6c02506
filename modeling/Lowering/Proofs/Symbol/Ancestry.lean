import Lowering.Proofs.Symbol.Freezing
import Lowering.Proofs.Symbol.InStep

/-! What stands above a symbol.

A climb along base links ends at a position without a base (`Climbs`). There is one climb at most
from a position, and the climb from a position on it is shorter; so none comes back to where it has
been, and there are no more steps in it than positions. Without cycles every declaration has a
climb, which read as symbols is its ancestry: each symbol in it is the declared base of the one
before. The capabilities of a symbol are those that it and its ancestors are declared with
(`ancestry_and_capabilities`). -/
namespace Lowering

open Relation

/-! ### Climbs -/

namespace BaseLinks

/-- The bases above a position, nearest first, up to one that has no base. -/
inductive Climbs (links : BaseLinks) : Nat → List Nat → Prop
  | top {i : Nat} (h : links.base? i = none) : Climbs links i []
  | step {i b : Nat} {above : List Nat} (h : links.base? i = some b) (rest : Climbs links b above) :
      Climbs links i (b :: above)

namespace Climbs

variable {links : BaseLinks} {i j k steps : Nat} {above above' : List Nat}

theorem unique (h : links.Climbs i above) (h' : links.Climbs i above') : above' = above := by
  induction h generalizing above' with
  | top hnone =>
    cases h' with
    | top => rfl
    | step hsome => cases hnone.symm.trans hsome
  | step hb _ ih =>
    cases h' with
    | top hnone => cases hnone.symm.trans hb
    | step hb' rest' =>
      obtain rfl := Option.some.inj (hb.symm.trans hb')
      rw [ih rest']

/-- A way to an end is climbed. -/
theorem of_reaches (h : ReflTransGen links.Steps i k) (hk : links.base? k = none) :
    ∃ above, links.Climbs i above := by
  induction h using ReflTransGen.head_induction_on with
  | refl => exact ⟨[], .top hk⟩
  | head hstep _ ih =>
    obtain ⟨above, habove⟩ := ih
    exact ⟨_, .step hstep habove⟩

/-- What is met on a climb has less to climb. -/
theorem of_mem (h : links.Climbs i above) (hj : j ∈ above) :
    ∃ above', links.Climbs j above' ∧ above'.length < above.length := by
  induction h with
  | top => cases hj
  | step _ rest ih =>
    obtain rfl | hj := List.mem_cons.mp hj
    · exact ⟨_, rest, Nat.lt_succ_self _⟩
    · obtain ⟨above', hclimbs, hlt⟩ := ih hj
      exact ⟨above', hclimbs, Nat.lt_succ_of_lt hlt⟩

theorem not_mem (h : links.Climbs i above) : i ∉ above := by
  intro hi
  obtain ⟨above', hclimbs, hlt⟩ := h.of_mem hi
  rw [h.unique hclimbs] at hlt
  exact Nat.lt_irrefl _ hlt

theorem nodup (h : links.Climbs i above) : (i :: above).Nodup := by
  induction h with
  | top => exact List.nodup_singleton _
  | step hb rest ih => exact List.nodup_cons.mpr ⟨(step hb rest).not_mem, ih⟩

theorem lt_of_mem_dropLast (h : links.Climbs i above) (hj : j ∈ (i :: above).dropLast) :
    j < links.length := by
  induction h with
  | top => cases hj
  | step hb _ ih =>
    rw [List.dropLast_cons_cons] at hj
    obtain rfl | hj := List.mem_cons.mp hj
    · exact lt_of_base? hb
    · exact ih hj

/-- Each position is left once at most. -/
theorem length_le (h : links.Climbs i above) : above.length ≤ links.length := by
  have hnodup : (i :: above).dropLast.Nodup := h.nodup.sublist (List.dropLast_sublist _)
  have hsubset : (i :: above).dropLast ⊆ List.range links.length := fun j hj =>
    List.mem_range.mpr (h.lt_of_mem_dropLast hj)
  have hle := hnodup.length_le_of_subset hsubset
  rwa [List.length_dropLast, List.length_cons, Nat.add_sub_cancel, List.length_range] at hle

/-- With enough steps a walk climbs to the end. -/
theorem above_eq (h : links.Climbs i above) (hsteps : above.length ≤ steps) :
    links.above steps i = above := by
  induction h generalizing steps with
  | top hnone =>
    cases steps with
    | zero => rfl
    | succ steps => rw [BaseLinks.above, hnone]
  | step hb _ ih =>
    cases steps with
    | zero => cases hsteps
    | succ steps =>
      rw [BaseLinks.above, hb]
      exact congrArg (_ :: ·) (ih (Nat.le_of_succ_le_succ hsteps))

theorem chain_eq (h : links.Climbs i above) : links.chain i = above :=
  h.above_eq h.length_le

end Climbs

end BaseLinks

/-! ### Capabilities -/

/-- One of the things that instances of a class may be able to do. -/
inductive Capability where
  | reflectable
  | bindable
  | dispatchesEvents

namespace Capabilities

def has (c : Capabilities) : Capability → Bool
  | .reflectable => c.reflectable
  | .bindable => c.bindable
  | .dispatchesEvents => c.dispatchesEvents

theorem has_union (a b : Capabilities) (c : Capability) : (a.union b).has c = (a.has c || b.has c) := by
  cases c <;> rfl

theorem has_foldl_union {α : Type} (own : α → Capabilities) (l : List α) (a : α) (c : Capability) :
    (l.foldl (fun found b => found.union (own b)) (own a)).has c ↔ ∃ b ∈ a :: l, (own b).has c := by
  have hfrom (found : Capabilities) : (l.foldl (fun found b => found.union (own b)) found).has c ↔
      found.has c ∨ ∃ b ∈ l, (own b).has c := by
    induction l generalizing found with
    | nil => simp
    | cons b rest ih => rw [List.foldl_cons, ih, has_union, Bool.or_eq_true, or_assoc, List.exists_mem_cons_iff]
  rw [hfrom, List.exists_mem_cons_iff]

end Capabilities

/-! ### Ancestries -/

namespace SymbolTable

/-- The second symbol is the base of the first: declared by its name, and linked by its id. -/
structure BaseOf (t : SymbolTable) (s b : Symbol) : Prop where
  declared : s.declaration.base = some b.name
  linked : s.base = some b.id
  held : t.symbols[b.id]? = some b

/-- The base of a symbol, the base of that, and so on up to a symbol without base. -/
inductive Ancestry (t : SymbolTable) : Symbol → List Symbol → Prop
  | top {s : Symbol} (declared : s.declaration.base = none) (linked : s.base = none) : Ancestry t s []
  | base {s b : Symbol} {above : List Symbol} (h : t.BaseOf s b) (rest : Ancestry t b above) :
      Ancestry t s (b :: above)

namespace Ancestry

variable {t : SymbolTable} {s b : Symbol} {above : List Symbol}

theorem subset (h : t.Ancestry s above) : above ⊆ t.symbols := by
  induction h with
  | top => exact List.nil_subset _
  | base hb _ ih => exact List.cons_subset.mpr ⟨List.mem_of_getElem? hb.held, ih⟩

theorem of_mem (h : t.Ancestry s above) (hb : b ∈ above) :
    ∃ above', t.Ancestry b above' ∧ above' ⊆ above := by
  induction h with
  | top => cases hb
  | base _ rest ih =>
    obtain rfl | hb := List.mem_cons.mp hb
    · exact ⟨_, rest, List.subset_cons_self _ _⟩
    · obtain ⟨above', hancestry, hsubset⟩ := ih hb
      exact ⟨above', hancestry, List.subset_cons_of_subset _ hsubset⟩

theorem climbs (h : t.Ancestry s above) (hs : t.symbols[s.id]? = some s) :
    BaseLinks.Climbs (t.symbols.map (·.base)) s.id (above.map (·.id)) := by
  have hbase {s : Symbol} (hs : t.symbols[s.id]? = some s) :
      BaseLinks.base? (t.symbols.map (·.base)) s.id = s.base := by
    rw [BaseLinks.base?, List.getElem?_map, hs]
    rfl
  induction h with
  | top _ hlinked => exact .top ((hbase hs).trans hlinked)
  | base hb _ ih => exact .step ((hbase hs).trans hb.linked) (ih hb.held)

end Ancestry

end SymbolTable

namespace Registry

variable {r : Registry} {style : NameStyle} {t : SymbolTable} {s : Symbol} {i : Nat}

/-- Above a declaration that does not come back to itself there is an end. -/
theorem Acyclic.climbs (h : r.Acyclic) {d : Declaration} (hd : r.declarations[i]? = some d) :
    ∃ above, r.baseLinks.Climbs i above := by
  cases hcycle : r.cycleOf? i with
  | some c => exact absurd ((cycleOf?_eq_some hd).mp hcycle).1 (acyclic_iff.mp h c)
  | none =>
    rw [cycleOf?, Option.map_eq_none_iff] at hcycle
    obtain ⟨k, hik, hk⟩ := BaseLinks.cycle?_eq_none hcycle
    exact BaseLinks.Climbs.of_reaches hik hk

/-- A position without base is that of a declaration that names none. -/
theorem Resolved.base_eq_none (h : r.Resolved) {d : Declaration} (hd : r.declarations[i]? = some d)
    (hi : r.baseLinks.base? i = none) : d.base = none := by
  rw [base?_baseLinks, hd, Option.bind_some] at hi
  cases hb : d.base with
  | none => rfl
  | some b =>
    rw [hb, Option.bind_some] at hi
    obtain ⟨e, he, hname⟩ := h d (List.mem_of_getElem? hd) b (by simp [Declaration.references, hb])
    exact absurd hname (id?_eq_none hi he)

/-- Where the links are climbed, the symbols have an ancestry. -/
theorem ancestry_of_climbs (h : r.freeze style = .ok t) {ids : List Nat} (hclimbs : r.baseLinks.Climbs i ids)
    (hs : t.symbols[i]? = some s) : ∃ above, t.Ancestry s above := by
  induction hclimbs generalizing s with
  | top hnone =>
    obtain ⟨d, hd, rfl⟩ := (symbols_of_freeze h).mp hs
    have hresolved := (faults_eq_nil.mp ((exists_freeze style).mp ⟨t, h⟩)).1
    have hbase : d.base = none := hresolved.base_eq_none hd hnone
    have hlinked : d.base.bind r.id? = none := by rw [hbase, Option.bind_none]
    exact ⟨[], .top hbase hlinked⟩
  | @step i b _ hstep _ ih =>
    obtain ⟨d, n, hd, hn, hid⟩ := steps_iff.mp hstep
    obtain ⟨e, he, rfl⟩ := id?_eq_some_iff.mp hid
    obtain ⟨d', hd', rfl⟩ := (symbols_of_freeze h).mp hs
    obtain rfl := Option.some.inj (hd.symm.trans hd')
    have hheld := (symbols_of_freeze h).mpr ⟨e, he, rfl⟩
    have hlinked : d.base.bind r.id? = some b := by rw [hn, Option.bind_some, hid]
    obtain ⟨above, hancestry⟩ := ih hheld
    exact ⟨r.symbol style e b :: above, .base ⟨hn, hlinked, hheld⟩ hancestry⟩

/-- Every symbol of a frozen table has an ancestry. -/
theorem exists_ancestry (h : r.freeze style = .ok t) (hs : s ∈ t.symbols) : ∃ above, t.Ancestry s above := by
  obtain ⟨i, hi⟩ := List.getElem?_of_mem hs
  obtain ⟨d, hd, -⟩ := (symbols_of_freeze h).mp hi
  have hacyclic := (faults_eq_nil.mp ((exists_freeze style).mp ⟨t, h⟩)).2
  obtain ⟨ids, hclimbs⟩ := hacyclic.climbs hd
  exact ancestry_of_climbs h hclimbs hi

theorem climbs_of_freeze (h : r.freeze style = .ok t) (hs : s ∈ t.symbols) {above : List Symbol}
    (ha : t.Ancestry s above) : BaseLinks.Climbs (t.symbols.map (·.base)) s.id (above.map (·.id)) := by
  obtain ⟨i, hi⟩ := List.getElem?_of_mem hs
  obtain rfl := (inStep_of_freeze h).ids i s hi
  exact ha.climbs hi

theorem baseLinks_of_freeze (h : r.freeze style = .ok t) : t.symbols.map (·.base) = r.baseLinks := by
  rw [eq_of_freeze h, List.map_map, baseLinks]
  show r.declarations.zipIdx.map ((fun d : Declaration => d.base.bind r.id?) ∘ Prod.fst) = _
  rw [← List.map_map, List.zipIdx_map_fst]

/-- A symbol can do what it or one of its ancestors is declared to be able to do. -/
theorem capabilities_iff (h : r.freeze style = .ok t) (hs : s ∈ t.symbols) {above : List Symbol}
    (ha : t.Ancestry s above) (c : Capability) :
    s.capabilities.has c ↔ ∃ a ∈ s :: above, a.declaration.capabilities.has c := by
  have hown {a : Symbol} (ha : a ∈ t.symbols) :
      (r.declarations[a.id]?.map (·.capabilities)).getD default = a.declaration.capabilities := by
    obtain ⟨j, hj⟩ := List.getElem?_of_mem ha
    obtain ⟨d, hd, rfl⟩ := (symbols_of_freeze h).mp hj
    show (r.declarations[j]?.map (·.capabilities)).getD default = d.capabilities
    rw [hd]
    rfl
  have hflow : s.capabilities = r.capabilitiesAt s.id := by
    obtain ⟨i, hi⟩ := List.getElem?_of_mem hs
    obtain ⟨d, -, rfl⟩ := (symbols_of_freeze h).mp hi
    rfl
  have hchain := (climbs_of_freeze h hs ha).chain_eq
  rw [baseLinks_of_freeze h] at hchain
  have hunion : s.capabilities =
      above.foldl (fun found a => found.union a.declaration.capabilities) s.declaration.capabilities := by
    rw [hflow, capabilitiesAt, hchain, List.foldl_map, ← hown hs]
    refine List.foldl_ext _ _ _ fun found a hmem => ?_
    rw [← hown (ha.subset hmem)]
  rw [hunion]
  exact Capabilities.has_foldl_union (fun a : Symbol => a.declaration.capabilities) above s c

theorem find?_declaration (h : r.freeze style = .ok t) (hs : s ∈ t.symbols) :
    r.find? s.name = some s.declaration := by
  obtain ⟨i, hi⟩ := List.getElem?_of_mem hs
  obtain ⟨d, hd, rfl⟩ := (symbols_of_freeze h).mp hi
  exact find?_eq_some.mpr ⟨List.mem_of_getElem? hd, rfl⟩

end Registry

/-- **In a frozen table the bases of a symbol, and the bases of those, come to an end. The chain of
the symbol lists all of them, nearest first, none of them twice and the symbol itself not at all;
walking on for longer finds no more. The symbol is able to do what it or one of them was registered
to do and nothing else, so that it can do whatever any of them can.** -/
theorem ancestry_and_capabilities (r : Registry) (style : NameStyle) (t : SymbolTable)
    (h : r.freeze style = .ok t) (s : Symbol) (hs : s ∈ t.symbols) :
    ∃ above, t.Ancestry s above ∧ t.chain s = above.map (·.id) ∧
      (∀ steps ≥ above.length, BaseLinks.above (t.symbols.map (·.base)) steps s.id = t.chain s) ∧
      (s.id :: t.chain s).Nodup ∧ (∀ a ∈ s :: above, r.find? a.name = some a.declaration) ∧
      (∀ c, s.capabilities.has c ↔ ∃ a ∈ s :: above, a.declaration.capabilities.has c) ∧
      ∀ b ∈ above, ∀ c, b.capabilities.has c → s.capabilities.has c := by
  obtain ⟨above, ha⟩ := Registry.exists_ancestry h hs
  have hclimbs := Registry.climbs_of_freeze h hs ha
  have hchain : t.chain s = above.map (·.id) := hclimbs.chain_eq
  refine ⟨above, ha, hchain, fun steps hsteps => ?_, ?_, fun a hmem => ?_, Registry.capabilities_iff h hs ha,
    fun b hb c hc => ?_⟩
  · rw [hchain]
    exact hclimbs.above_eq (by rwa [List.length_map])
  · rw [hchain]
    exact hclimbs.nodup
  · exact Registry.find?_declaration h (List.cons_subset.mpr ⟨hs, ha.subset⟩ hmem)
  · obtain ⟨above', hb', hsubset⟩ := ha.of_mem hb
    obtain ⟨a, hmem, hac⟩ := (Registry.capabilities_iff h (ha.subset hb) hb' c).mp hc
    -- whatever the base has it from is the base or above it, and so above the symbol
    have habove : a ∈ above := List.cons_subset.mpr ⟨hb, hsubset⟩ hmem
    exact (Registry.capabilities_iff h hs ha c).mpr ⟨a, List.mem_cons_of_mem s habove, hac⟩

/-- A button, declared before its bases and without capabilities of its own. -/
def buttons : Registry := (Registry.empty.registerAll
  [{ name := ⟨"ui.Button"⟩, base := some ⟨"ui.Control"⟩ },
    { name := ⟨"ui.Control"⟩, base := some ⟨"core.Root"⟩, bindable := true },
    { name := ⟨"core.Root"⟩, reflectable := true }]).1

/-- The button can do what the bases can that come after it. -/
theorem button_ancestry : ∃ t, buttons.freeze .dotted = .ok t ∧ ∃ s ∈ t.symbols, s.name = ⟨"ui.Button"⟩ ∧
    ∃ above, t.Ancestry s above ∧ above.map (·.id) = [1, 2] ∧
      s.capabilities.has .bindable ∧ s.capabilities.has .reflectable ∧ !s.capabilities.has .dispatchesEvents := by
  refine ⟨_, rfl, _, List.mem_cons_self, rfl, ?_⟩
  obtain ⟨above, ha, hchain, -⟩ := ancestry_and_capabilities buttons .dotted _ rfl _ List.mem_cons_self
  exact ⟨above, ha, hchain.symm.trans (by decide), by decide, by decide, by decide⟩

end Lowering
