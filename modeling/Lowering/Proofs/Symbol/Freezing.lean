import Lowering.Proofs.Symbol.Cycles

/-! What keeps a registry from being frozen.

The failures are put together here from what each reference and each search contributes:
one for every reference to a name that is not declared, then one for every cycle of bases, in
the order in which the declarations lead into them. There is none exactly where everything
resolves and nothing is its own ancestor (`frozen_or_every_fault`). -/
namespace Lowering

open Relation

/-! ### Listing each thing once -/

section
variable {α β : Type} [DecidableEq α] [DecidableEq β]

/-- Goes on a list with what is not in it yet. -/
def addNew (found : List α) (a : α) : List α := if a ∈ found then found else found ++ [a]

theorem mem_addNew {found : List α} {a b : α} : b ∈ addNew found a ↔ b ∈ found ∨ b = a := by
  unfold addNew
  split
  next hold =>
    constructor
    · exact .inl
    · rintro (h | rfl)
      · exact h
      · exact hold
  next => rw [List.mem_append, List.mem_singleton]

theorem mem_foldl_addNew {l found : List α} {a : α} : a ∈ l.foldl addNew found ↔ a ∈ found ∨ a ∈ l := by
  induction l generalizing found with
  | nil => simp
  | cons b l ih => rw [List.foldl_cons, ih, mem_addNew, List.mem_cons, or_assoc]

/-- What is found at the positions from zero on, each thing where it is found first. -/
def findings (f : Nat → Option α) (n : Nat) : List α := ((List.range n).filterMap f).foldl addNew []

theorem mem_findings {f : Nat → Option α} {n : Nat} {a : α} : a ∈ findings f n ↔ ∃ i < n, f i = some a := by
  simp [findings, mem_foldl_addNew]

theorem findings_succ (f : Nat → Option α) (n : Nat) :
    findings f (n + 1) = (f n).elim (findings f n) (addNew (findings f n)) := by
  rw [findings, List.range_succ, List.filterMap_append, List.foldl_append]
  cases hn : f n with
  | none => rw [List.filterMap_cons_none hn, List.filterMap_nil, List.foldl_nil, Option.elim_none, findings]
  | some a =>
    rw [List.filterMap_cons_some hn, List.filterMap_nil, List.foldl_cons, List.foldl_nil, Option.elim_some,
      findings]

/-- What comes later is found at no position up to one of what comes before. -/
theorem findings_pairwise (f : Nat → Option α) (n : Nat) :
    (findings f n).Pairwise fun a b => ∃ i < n, f i = some a ∧ ∀ j ≤ i, f j ≠ some b := by
  induction n with
  | zero => exact .nil
  | succ n ih =>
    have hbefore : (findings f n).Pairwise fun a b => ∃ i < n + 1, f i = some a ∧ ∀ j ≤ i, f j ≠ some b :=
      ih.imp fun ⟨i, hi, h⟩ => ⟨i, Nat.lt_succ_of_lt hi, h⟩
    rw [findings_succ]
    cases f n with
    | none => exact hbefore
    | some b =>
      rw [Option.elim_some, addNew]
      split
      next => exact hbefore
      next hnew =>
        refine List.pairwise_append.mpr ⟨hbefore, List.pairwise_singleton _ b, fun a ha b' hb' => ?_⟩
        obtain rfl := List.mem_singleton.mp hb'
        obtain ⟨i, hi, hia⟩ := mem_findings.mp ha
        refine ⟨i, Nat.lt_succ_of_lt hi, hia, fun j hj hjb => ?_⟩
        exact hnew (mem_findings.mpr ⟨j, Nat.lt_of_le_of_lt hj hi, hjb⟩)

theorem foldl_addNew_map {f : α → β} (hf : Function.Injective f) (l : List α) :
    (l.map f).foldl addNew [] = (l.foldl addNew []).map f := by
  rw [List.foldl_map, ← List.map_nil (f := f)]
  refine List.foldl_hom (List.map f) fun found a => ?_
  unfold addNew
  by_cases ha : a ∈ found
  · rw [if_pos ha, if_pos (List.mem_map_of_mem ha)]
  · rw [if_neg ha, if_neg (mt (List.mem_map_of_injective hf).mp ha), List.map_append, List.map_singleton]

end

/-- The names that a declaration refers to, the base before the interfaces. -/
def Declaration.references (d : Declaration) : List Name := d.base.toList ++ d.interfaces

namespace Registry

variable (r : Registry)

/-- Every reference is to a declared name. -/
def Resolved : Prop := ∀ d ∈ r.declarations, ∀ n ∈ d.references, ∃ e ∈ r.declarations, e.name = n

/-- No declared name is its own ancestor. -/
def Acyclic : Prop := ∀ d ∈ r.declarations, ¬TransGen r.Extends d.name d.name

/-- One failure for each reference to a name that is not declared. -/
def dangling : List Error :=
  r.declarations.flatMap fun d =>
    (d.references.filter fun n => n ∉ r.declarations.map (·.name)).map fun n =>
      .unresolvedSymbol n d.name d.location

/-- Some declaration leads into the first cycle, and neither it nor one before it into the second. -/
def EntersBefore (c c' : List Name) : Prop :=
  ∃ (i : Nat) (d : Declaration), r.declarations[i]? = some d ∧ r.LeadsInto d.name c ∧
    ∀ j ≤ i, ∀ e, r.declarations[j]? = some e → ¬r.LeadsInto e.name c'

/-- A list of all the cycles, each once, in the order in which the declarations lead into them. -/
structure ListsCycles (cycles : List (List Name)) : Prop where
  mem_iff : ∀ c, c ∈ cycles ↔ r.IsCycle c
  nodup : cycles.Nodup
  order : cycles.Pairwise r.EntersBefore

variable {r} {c c' : List Name}

theorem id?_isSome (n : Name) : (r.id? n).isSome = true ↔ n ∈ r.declarations.map (·.name) := by
  rw [id?_eq, List.findIdx?_isSome, List.any_eq_true]
  simp

theorem unresolved_eq (r : Registry) : r.declarations.flatMap r.unresolved = r.dangling := by
  unfold dangling
  refine List.flatMap_congr fun d _ => ?_
  rw [unresolved, ← List.filterMap_eq_map, ← List.filterMap_eq_filter, List.filterMap_filterMap]
  refine List.filterMap_congr fun n _ => ?_
  rw [unresolvedFrom]
  by_cases hn : n ∈ r.declarations.map (·.name)
  · rw [if_pos ((id?_isSome n).mpr hn)]
    simp [Option.guard, hn]
  · rw [if_neg (mt (id?_isSome n).mp hn)]
    simp [Option.guard, hn]

theorem dangling_eq_nil : r.dangling = [] ↔ r.Resolved := by
  simp [dangling, Resolved]

theorem cycleFault_injective (r : Registry) : Function.Injective r.cycleFault := by
  intro c c' h
  have hnames := (Error.inheritanceCycle.inj h).1
  cases c with
  | nil =>
    cases c' with
    | nil => rfl
    | cons b rest' => cases hnames
  | cons a rest =>
    cases c' with
    | nil => cases hnames
    | cons b rest' => exact (List.append_inj' hnames rfl).1

theorem IsCycle.exists_declaration (h : r.IsCycle c) :
    ∃ (i : Nat) (d : Declaration), r.declarations[i]? = some d ∧ r.LeadsInto d.name c := by
  obtain ⟨n, hn⟩ := List.exists_mem_of_ne_nil c h.loop.nonempty
  obtain ⟨-, -, d, hd, rfl, -⟩ := h.loop.successor hn
  obtain ⟨i, hi⟩ := List.getElem?_of_mem hd
  exact ⟨i, d, hi, d.name, hn, .refl⟩

/-- The search reports all the cycles. -/
theorem cycles_eq (r : Registry) : ∃ cycles, r.ListsCycles cycles ∧ r.cycles = cycles.map r.cycleFault := by
  have horder := findings_pairwise r.cycleOf? r.size
  refine ⟨findings r.cycleOf? r.size, ⟨fun c => ?_, ?_, ?_⟩, ?_⟩
  · rw [mem_findings]
    constructor
    · rintro ⟨i, hi, hc⟩
      obtain ⟨d, -, hd, -⟩ := exists_at hi
      exact ((cycleOf?_eq_some hd).mp hc).1
    · intro hc
      obtain ⟨i, d, hd, hleads⟩ := hc.exists_declaration
      exact ⟨i, (List.getElem?_eq_some_iff.mp hd).1, (cycleOf?_eq_some hd).mpr ⟨hc, hleads⟩⟩
  · refine horder.imp ?_
    rintro c c' ⟨i, -, hc, hnot⟩ rfl
    exact hnot i le_rfl hc
  · refine horder.imp_of_mem ?_
    rintro c c' - hc' ⟨i, hi, hic, hnot⟩
    obtain ⟨k, hk, hkc'⟩ := mem_findings.mp hc'
    obtain ⟨e, -, he, -⟩ := exists_at hk
    have hcycle := ((cycleOf?_eq_some he).mp hkc').1
    obtain ⟨d, -, hd, -⟩ := exists_at hi
    refine ⟨i, d, hd, ((cycleOf?_eq_some hd).mp hic).2, ?_⟩
    intro j hj e he hleads
    exact hnot j hj ((cycleOf?_eq_some he).mpr ⟨hcycle, hleads⟩)
  · rw [findings, ← foldl_addNew_map r.cycleFault_injective, List.map_filterMap]
    unfold cycles
    congr 1
    refine List.filterMap_congr fun i _ => ?_
    rw [cycleOf?, Option.map_map]
    cases hcycle : r.baseLinks.cycle? i with
    | none => rfl
    | some cycle => exact congrArg some (cycleError_eq (BaseLinks.cycle?_eq_some hcycle).1)

/-- There is a cycle exactly where a declared name is its own ancestor. -/
theorem acyclic_iff : r.Acyclic ↔ ∀ c, ¬r.IsCycle c := by
  constructor
  · intro h c hc
    obtain ⟨n, hn⟩ := List.exists_mem_of_ne_nil c hc.loop.nonempty
    obtain ⟨-, -, d, hd, rfl, -⟩ := hc.loop.successor hn
    exact h d hd (hc.loop.around hn hn)
  · intro h d hd hself
    obtain ⟨i, hi⟩ := List.getElem?_of_mem hd
    have hlt : i < r.size := (List.getElem?_eq_some_iff.mp hi).1
    cases hcycle : r.cycleOf? i with
    | some c => exact h c ((cycleOf?_eq_some hi).mp hcycle).1
    | none =>
      rw [cycleOf?, Option.map_eq_none_iff] at hcycle
      obtain ⟨k, hik, hk⟩ := BaseLinks.cycle?_eq_none hcycle
      obtain ⟨n, hdn, hends⟩ := exists_end hlt hik hk
      rw [nameAt_eq hi] at hdn
      obtain ⟨m, hstep, -⟩ := TransGen.head'_iff.mp (returns r.extends_unique hself hdn)
      exact hends m hstep

theorem faults_eq (r : Registry) :
    ∃ cycles, r.ListsCycles cycles ∧ r.faults = r.dangling ++ cycles.map r.cycleFault := by
  obtain ⟨cycles, hlists, hcycles⟩ := r.cycles_eq
  exact ⟨cycles, hlists, by rw [faults, unresolved_eq, hcycles]⟩

theorem faults_eq_nil : r.faults = [] ↔ r.Resolved ∧ r.Acyclic := by
  obtain ⟨cycles, hlists, hfaults⟩ := r.faults_eq
  rw [hfaults, List.append_eq_nil_iff, dangling_eq_nil, List.map_eq_nil_iff,
    List.eq_nil_iff_forall_not_mem, acyclic_iff]
  simp only [hlists.mem_iff]

theorem exists_freeze (style : NameStyle) : (∃ t, r.freeze style = .ok t) ↔ r.faults = [] := by
  unfold freeze
  split
  next h => exact ⟨fun _ => h, fun _ => ⟨_, rfl⟩⟩
  next h =>
    constructor
    · rintro ⟨t, ht⟩
      cases ht
    · exact fun hnil => absurd hnil h

theorem freeze_eq_error (style : NameStyle) (errors : List Error) :
    r.freeze style = .error errors ↔ r.faults ≠ [] ∧ errors = r.faults := by
  unfold freeze
  split
  next h => simp [h]
  next h =>
    rw [Except.error.injEq]
    exact ⟨fun heq => ⟨h, heq.symm⟩, fun heq => heq.2.symm⟩

end Registry

/-- **A registry freezes exactly when every reference is to a declared name and no declared name
is its own ancestor; otherwise every dangling reference is reported and every cycle, once.** -/
theorem frozen_or_every_fault (r : Registry) (style : NameStyle) :
    ((∃ t, r.freeze style = .ok t) ↔ r.Resolved ∧ r.Acyclic) ∧
      ∃ cycles, r.ListsCycles cycles ∧ ∀ errors, r.freeze style = .error errors ↔
        ¬(r.Resolved ∧ r.Acyclic) ∧ errors = r.dangling ++ cycles.map r.cycleFault := by
  obtain ⟨cycles, hlists, hfaults⟩ := r.faults_eq
  refine ⟨(Registry.exists_freeze style).trans Registry.faults_eq_nil, cycles, hlists, fun errors => ?_⟩
  rw [Registry.freeze_eq_error, ne_eq, Registry.faults_eq_nil, hfaults]

/-- The cycle is entered from outside first, and is written from its least member all the same. -/
example : (Registry.empty.registerAll
    [{ name := ⟨"z"⟩, base := some ⟨"c"⟩, interfaces := [⟨"i"⟩] }, { name := ⟨"c"⟩, base := some ⟨"b"⟩ },
      { name := ⟨"b"⟩, base := some ⟨"c"⟩ }]).1.freeze .dotted =
    .error [.unresolvedSymbol ⟨"i"⟩ ⟨"z"⟩ none, .inheritanceCycle [⟨"b"⟩, ⟨"c"⟩, ⟨"b"⟩] none] := rfl

end Lowering
