import Lowering.Proofs.Symbol.Lookup
import Lowering.Proofs.Symbol.Loops

/-! The cycles that a search along base links finds.

From a position the search follows the links. What it has passed is a way without repetition
(`Trail`), so within as many steps as there are positions it comes back to a position on the
way, which closes a loop, or to one without a base. Read as names and written from its least
member, what the search finds from a declaration is the one cycle that the declaration leads
into (`cycleOf?_eq_some`). -/
namespace Lowering

open Relation

section
variable {α : Type} [DecidableEq α] {a : α} {l l' : List α}

theorem dropWhile_ne (h : a ∉ l) : (l ++ a :: l').dropWhile (· ≠ a) = a :: l' := by
  have hpassed : ∀ b ∈ l, decide (b ≠ a) = true := fun b hb => decide_eq_true (ne_of_mem_of_not_mem hb h)
  rw [List.dropWhile_append_of_pos hpassed, List.dropWhile_cons]
  simp

theorem takeWhile_ne (h : a ∉ l) : (l ++ a :: l').takeWhile (· ≠ a) = l := by
  have hpassed : ∀ b ∈ l, decide (b ≠ a) = true := fun b hb => decide_eq_true (ne_of_mem_of_not_mem hb h)
  rw [List.takeWhile_append_of_pos hpassed, List.takeWhile_cons]
  simp

end

theorem rotateTo_eq {i : Nat} {before after : List Nat} (h : i ∉ before) :
    rotateTo i (before ++ i :: after) = i :: (after ++ before) := by
  rw [rotateTo, dropWhile_ne h, takeWhile_ne h, List.cons_append]

/-! ### Searching -/

namespace BaseLinks

/-- One position has the other as its base. -/
def Steps (links : BaseLinks) (i j : Nat) : Prop := links.base? i = some j

variable {links : BaseLinks} {start i j b : Nat} {before c : List Nat}

theorem lt_of_base? (h : links.base? i = some b) : i < links.length := by
  by_contra hge
  rw [base?, List.getElem?_eq_none (by omega)] at h
  cases h

/-- The way that a search has come from `start` to a position. -/
structure Trail (links : BaseLinks) (start : Nat) (before : List Nat) (i : Nat) : Prop where
  chain : (before ++ [i]).IsChain links.Steps
  distinct : (before ++ [i]).Nodup
  reached : ∀ j ∈ before ++ [i], ReflTransGen links.Steps start j

namespace Trail

theorem single (i : Nat) : links.Trail i [] i where
  chain := .singleton i
  distinct := List.nodup_singleton i
  reached := by
    intro j hj
    rw [List.mem_singleton.mp hj]

theorem reached_base (h : links.Trail start before i) (hb : links.base? i = some b) :
    ReflTransGen links.Steps start b :=
  (h.reached i (by simp)).tail hb

theorem step (h : links.Trail start before i) (hb : links.base? i = some b)
    (hfresh : b ∉ before ++ [i]) : links.Trail start (before ++ [i]) b where
  chain := by
    refine List.isChain_append.mpr ⟨h.chain, .singleton b, ?_⟩
    simpa [Steps] using hb
  distinct := List.nodup_append.mpr ⟨h.distinct, List.nodup_singleton b, by
    intro j hj k hk hjk
    exact hfresh (List.mem_singleton.mp hk ▸ hjk ▸ hj)⟩
  reached := by
    intro j hj
    obtain hj | hj := List.mem_append.mp hj
    · exact h.reached j hj
    · rw [List.mem_singleton.mp hj]
      exact h.reached_base hb

/-- A way that comes back to itself closes a loop there. -/
theorem closes (h : links.Trail start before i) (hb : links.base? i = some b) (hmem : b ∈ before ++ [i]) :
    IsLoop links.Steps ((before ++ [i]).dropWhile (· ≠ b)) := by
  obtain ⟨passed, after, hsplit, hpassed⟩ := List.eq_append_cons_of_mem hmem
  have hlast : (b :: after).getLast? = some i := by
    have hends := congrArg List.getLast? hsplit
    rw [List.getLast?_append_of_ne_nil _ (List.cons_ne_nil b after)] at hends
    simpa using hends.symm
  rw [hsplit, dropWhile_ne hpassed, IsLoop.cons_iff]
  have hdistinct := hsplit ▸ h.distinct
  have hchain := hsplit ▸ h.chain
  refine ⟨(List.nodup_append.mp hdistinct).2.1, ?_⟩
  rw [← List.cons_append]
  refine List.isChain_append.mpr ⟨(List.isChain_append.mp hchain).2.1, .singleton b, ?_⟩
  intro k hk m hm
  rw [hlast] at hk
  obtain rfl := Option.some.inj hk
  obtain rfl := Option.some.inj hm
  exact hb

/-- A way is no longer than there are positions, unless its end has no base. -/
theorem ends (h : links.Trail start before i) (hlength : before.length = links.length) :
    links.base? i = none := by
  cases hb : links.base? i with
  | none => rfl
  | some b =>
    have hlt : ∀ j ∈ before ++ [i], j < links.length := by
      intro j hj
      obtain hj | hj := List.mem_append.mp hj
      · obtain ⟨k, hk⟩ := exists_next h.chain hj
        exact lt_of_base? hk
      · exact List.mem_singleton.mp hj ▸ lt_of_base? hb
    have hsubset : before ++ [i] ⊆ List.range links.length := fun j hj => List.mem_range.mpr (hlt j hj)
    have hle := (h.distinct.subperm hsubset).length_le
    rw [List.length_append, List.length_range, List.length_singleton] at hle
    omega

end Trail

theorem cycleFrom?_eq_some (steps : Nat) (h : links.Trail start before i)
    (hc : links.cycleFrom? steps (before ++ [i]) i = some c) :
    IsLoop links.Steps c ∧ ∀ j ∈ c, ReflTransGen links.Steps start j := by
  induction steps generalizing before i with
  | zero => cases hc
  | succ steps ih =>
    rw [cycleFrom?] at hc
    cases hb : links.base? i with
    | none =>
      rw [hb] at hc
      cases hc
    | some b =>
      rw [hb] at hc
      dsimp only at hc
      by_cases hmem : b ∈ before ++ [i]
      · rw [if_pos hmem] at hc
        obtain rfl := Option.some.inj hc
        exact ⟨h.closes hb hmem, fun j hj => h.reached j ((List.dropWhile_sublist _).subset hj)⟩
      · rw [if_neg hmem] at hc
        exact ih (h.step hb hmem) hc

theorem cycleFrom?_eq_none (steps : Nat) (h : links.Trail start before i)
    (hsteps : before.length + steps = links.length)
    (hc : links.cycleFrom? steps (before ++ [i]) i = none) :
    ∃ k, ReflTransGen links.Steps start k ∧ links.base? k = none := by
  induction steps generalizing before i with
  | zero => exact ⟨i, h.reached i (by simp), h.ends hsteps⟩
  | succ steps ih =>
    rw [cycleFrom?] at hc
    cases hb : links.base? i with
    | none => exact ⟨i, h.reached i (by simp), hb⟩
    | some b =>
      rw [hb] at hc
      dsimp only at hc
      by_cases hmem : b ∈ before ++ [i]
      · rw [if_pos hmem] at hc
        cases hc
      · rw [if_neg hmem] at hc
        refine ih (h.step hb hmem) ?_ hc
        rw [List.length_append, List.length_singleton]
        omega

theorem cycle?_eq_some (hc : links.cycle? i = some c) :
    IsLoop links.Steps c ∧ ∀ j ∈ c, ReflTransGen links.Steps i j :=
  cycleFrom?_eq_some links.length (.single i) hc

/-- Where the search finds no cycle, the bases come to an end. -/
theorem cycle?_eq_none (hc : links.cycle? i = none) :
    ∃ k, ReflTransGen links.Steps i k ∧ links.base? k = none :=
  cycleFrom?_eq_none links.length (.single i) (by simp) hc

end BaseLinks

/-! ### Names -/

namespace Registry

/-- A declared name extends the one that it has as its base. -/
def Extends (r : Registry) (a b : Name) : Prop := ∃ d ∈ r.declarations, d.name = a ∧ d.base = some b

/-- A cycle of base classes, written from its least member: every member extends the next one and
the last one the first. -/
def IsCycle (r : Registry) : List Name → Prop
  | [] => False
  | first :: rest =>
    (∀ n ∈ rest, first < n) ∧ rest.Nodup ∧ List.IsChain r.Extends (first :: (rest ++ [first]))

/-- The chain of bases of a name comes to a member of the cycle. -/
def LeadsInto (r : Registry) (a : Name) (cycle : List Name) : Prop :=
  ∃ n ∈ cycle, ReflTransGen r.Extends a n

/-- The names of a cycle of positions, from the least one on. -/
def written (r : Registry) (cycle : List Nat) : List Name := (rotateTo (r.leastOf cycle) cycle).map r.nameAt

/-- The cycle that the chain of a position runs into, written down. -/
def cycleOf? (r : Registry) (i : Nat) : Option (List Name) := (r.baseLinks.cycle? i).map r.written

variable {r : Registry} {d : Declaration} {a b n : Name} {i j : Nat} {c c' : List Name}

theorem extends_unique (r : Registry) : Relator.RightUnique r.Extends := by
  rintro a b b' ⟨d, hd, hname, hb⟩ ⟨e, he, hname', hb'⟩
  obtain rfl := eq_of_name_eq hd he (hname.trans hname'.symm)
  exact Option.some.inj (hb.symm.trans hb')

theorem IsCycle.loop (h : r.IsCycle c) : IsLoop r.Extends c := by
  cases c with
  | nil => exact h.elim
  | cons first rest =>
    obtain ⟨hleast, hnodup, hchain⟩ := h
    exact IsLoop.cons_iff.mpr
      ⟨List.nodup_cons.mpr ⟨fun hmem => Name.lt_irrefl first (hleast first hmem), hnodup⟩, hchain⟩

/-- A chain runs into one cycle. -/
theorem IsCycle.eq_of_leadsInto (h : r.IsCycle c) (h' : r.IsCycle c') (ha : r.LeadsInto a c)
    (ha' : r.LeadsInto a c') : c = c' := by
  obtain ⟨m, hm, ham⟩ := ha
  obtain ⟨m', hm', ham'⟩ := ha'
  have hsame := h.loop.mem_iff r.extends_unique h'.loop hm ham hm' ham'
  cases c with
  | nil => exact h.elim
  | cons first rest =>
    cases c' with
    | nil => exact h'.elim
    | cons first' rest' =>
      have hfirst : first = first' := by
        obtain heq | hrest := List.mem_cons.mp ((hsame first).mp List.mem_cons_self)
        · exact heq
        obtain heq | hrest' := List.mem_cons.mp ((hsame first').mpr List.mem_cons_self)
        · exact heq.symm
        exact absurd (Name.lt_trans (h.1 first' hrest') (h'.1 first hrest)) (Name.lt_irrefl first)
      subst hfirst
      rw [h.loop.eq_of_cons r.extends_unique h'.loop]

/-! ### Positions -/

theorem base?_baseLinks (r : Registry) (i : Nat) :
    r.baseLinks.base? i = r.declarations[i]?.bind fun d => d.base.bind r.id? := by
  rw [BaseLinks.base?, baseLinks, List.getElem?_map]
  cases r.declarations[i]? <;> rfl

theorem steps_iff : r.baseLinks.Steps i j ↔
    ∃ d b, r.declarations[i]? = some d ∧ d.base = some b ∧ r.id? b = some j := by
  rw [BaseLinks.Steps, base?_baseLinks]
  simp only [Option.bind_eq_some_iff]
  constructor
  · intro h
    obtain ⟨d, hd, b, hb, hj⟩ := h
    exact ⟨d, b, hd, hb, hj⟩
  · intro h
    obtain ⟨d, b, hd, hb, hj⟩ := h
    exact ⟨d, hd, b, hb, hj⟩

theorem lt_of_steps (h : r.baseLinks.Steps i j) : i < r.size ∧ j < r.size := by
  obtain ⟨d, b, hd, -, hj⟩ := steps_iff.mp h
  exact ⟨(List.getElem?_eq_some_iff.mp hd).1, (id?_eq_some hj).1⟩

theorem extends_of_steps (h : r.baseLinks.Steps i j) : r.Extends (r.nameAt i) (r.nameAt j) := by
  obtain ⟨d, b, hd, hb, hj⟩ := steps_iff.mp h
  exact ⟨d, List.mem_of_getElem? hd, (nameAt_eq hd).symm, hb.trans (congrArg some (id?_eq_some hj).2.symm)⟩

theorem reaches_of_steps (h : ReflTransGen r.baseLinks.Steps i j) :
    ReflTransGen r.Extends (r.nameAt i) (r.nameAt j) :=
  h.lift r.nameAt fun _ _ => extends_of_steps

/-- Where the links come to an end, the names do, at the latest with a base that is not declared. -/
theorem exists_end (hi : i < r.size) (h : ReflTransGen r.baseLinks.Steps i j)
    (hj : r.baseLinks.base? j = none) :
    ∃ n, ReflTransGen r.Extends (r.nameAt i) n ∧ ∀ m, ¬r.Extends n m := by
  have hlt : j < r.size := by
    cases h with
    | refl => exact hi
    | tail _ hstep => exact (lt_of_steps hstep).2
  obtain ⟨d, hd, hdj, hname⟩ := exists_at hlt
  rw [base?_baseLinks, hdj, Option.bind_some] at hj
  cases hb : d.base with
  | none =>
    refine ⟨d.name, hname ▸ reaches_of_steps h, ?_⟩
    rintro m ⟨e, he, hsame, hbase⟩
    obtain rfl := eq_of_name_eq he hd hsame
    rw [hb] at hbase
    cases hbase
  | some b =>
    rw [hb, Option.bind_some] at hj
    refine ⟨b, (reaches_of_steps h).tail ⟨d, hd, hname.symm, hb⟩, ?_⟩
    rintro m ⟨e, he, hsame, -⟩
    exact id?_eq_none hj he hsame

/-! ### What the search finds -/

theorem leastOf_spec (r : Registry) (i : Nat) (rest : List Nat) :
    r.leastOf (i :: rest) ∈ i :: rest ∧ ∀ j ∈ i :: rest, ¬r.nameAt j < r.nameAt (r.leastOf (i :: rest)) := by
  simp only [leastOf]
  induction rest generalizing i with
  | nil => simp [Name.lt_irrefl]
  | cons k rest ih =>
    rw [List.foldl_cons]
    by_cases hlt : r.nameAt k < r.nameAt i
    · rw [if_pos hlt]
      obtain ⟨hmem, hleast⟩ := ih k
      refine ⟨List.mem_cons_of_mem i hmem, ?_⟩
      intro j hj
      obtain rfl | hj := List.mem_cons.mp hj
      · exact fun hji => hleast k List.mem_cons_self (Name.lt_trans hlt hji)
      · exact hleast j hj
    · rw [if_neg hlt]
      obtain ⟨hmem, hleast⟩ := ih i
      refine ⟨?_, ?_⟩
      · obtain heq | hmem := List.mem_cons.mp hmem
        · rw [heq]
          exact List.mem_cons_self
        · exact List.mem_cons_of_mem i (List.mem_cons_of_mem k hmem)
      · intro j hj
        obtain rfl | hj := List.mem_cons.mp hj
        · exact hleast j List.mem_cons_self
        obtain rfl | hj := List.mem_cons.mp hj
        · -- the member left out is not before the one kept, nor is that before the least
          intro hjl
          obtain hji | heq | hij := Name.lt_or_eq_or_gt (r.nameAt j) (r.nameAt i)
          · exact hlt hji
          · exact hleast i List.mem_cons_self (heq ▸ hjl)
          · exact hleast i List.mem_cons_self (Name.lt_trans hij hjl)
        · exact hleast j (List.mem_cons_of_mem i hj)

section
variable {cycle : List Nat}

theorem lt_of_mem_loop (h : IsLoop r.baseLinks.Steps cycle) (hi : i ∈ cycle) : i < r.size := by
  obtain ⟨j, -, hstep⟩ := h.successor hi
  exact (lt_of_steps hstep).1

/-- A loop is turned round so that its least member comes first. -/
theorem exists_rotated (h : IsLoop r.baseLinks.Steps cycle) :
    ∃ rest, rotateTo (r.leastOf cycle) cycle = r.leastOf cycle :: rest ∧
      IsLoop r.baseLinks.Steps (r.leastOf cycle :: rest) ∧
      ∀ j ∈ r.leastOf cycle :: rest, ¬r.nameAt j < r.nameAt (r.leastOf cycle) := by
  have hspec : r.leastOf cycle ∈ cycle ∧ ∀ j ∈ cycle, ¬r.nameAt j < r.nameAt (r.leastOf cycle) := by
    cases cycle with
    | nil => exact absurd rfl h.nonempty
    | cons i rest => exact r.leastOf_spec i rest
  obtain ⟨hmem, hleast⟩ := hspec
  generalize r.leastOf cycle = least at hmem hleast ⊢
  obtain ⟨before, after, rfl, hbefore⟩ := List.eq_append_cons_of_mem hmem
  have hrotated : IsLoop r.baseLinks.Steps (least :: (after ++ before)) := h.rotate
  refine ⟨after ++ before, rotateTo_eq hbefore, hrotated, ?_⟩
  intro j hj
  refine hleast j ?_
  simp only [List.mem_append, List.mem_cons] at hj ⊢
  tauto

/-- What is written down is a cycle. -/
theorem written_isCycle (h : IsLoop r.baseLinks.Steps cycle) : r.IsCycle (r.written cycle) := by
  obtain ⟨rest, hrotate, hloop, hleast⟩ := exists_rotated h
  have hnames : IsLoop r.Extends ((r.leastOf cycle :: rest).map r.nameAt) :=
    hloop.map (fun _ _ => extends_of_steps) fun i hi j hj =>
      nameAt_inj (lt_of_mem_loop hloop hi) (lt_of_mem_loop hloop hj)
  rw [List.map_cons] at hnames
  obtain ⟨hnodup, hchain⟩ := IsLoop.cons_iff.mp hnames
  obtain ⟨hfirst, hrest⟩ := List.nodup_cons.mp hnodup
  rw [written, hrotate]
  refine ⟨?_, hrest, hchain⟩
  intro n hn
  obtain ⟨j, hj, rfl⟩ := List.mem_map.mp hn
  obtain hlt | heq | hgt := Name.lt_or_eq_or_gt (r.nameAt (r.leastOf cycle)) (r.nameAt j)
  · exact hlt
  · exact absurd (heq ▸ hn) hfirst
  · exact absurd hgt (hleast j (List.mem_cons_of_mem _ hj))

theorem mem_written (hi : i ∈ cycle) : r.nameAt i ∈ r.written cycle := by
  refine List.mem_map_of_mem ?_
  rw [rotateTo, List.mem_append, or_comm, ← List.mem_append, List.takeWhile_append_dropWhile]
  exact hi

end

/-- What leads into a cycle does not end: what it reaches lies on the cycle or before it. -/
theorem LeadsInto.exists_extends {n n' : Name} (hn : r.LeadsInto n c) (hc : r.IsCycle c)
    (hn' : ReflTransGen r.Extends n n') : ∃ m, r.Extends n' m := by
  obtain ⟨m, hm, hnm⟩ := hn
  obtain hbefore | hafter := hn'.total_of_right_unique r.extends_unique hnm
  · obtain rfl | ⟨next, hstep, -⟩ := hbefore.cases_head
    · obtain ⟨next, -, hstep⟩ := hc.loop.successor hm
      exact ⟨next, hstep⟩
    · exact ⟨next, hstep⟩
  · obtain ⟨next, -, hstep⟩ := hc.loop.successor (hc.loop.mem_of_reaches r.extends_unique hm hafter)
    exact ⟨next, hstep⟩

/-- The search finds the cycle that the declaration leads into, and that one alone. -/
theorem cycleOf?_eq_some (hd : r.declarations[i]? = some d) :
    r.cycleOf? i = some c ↔ r.IsCycle c ∧ r.LeadsInto d.name c := by
  have hname := nameAt_eq hd
  have hi : i < r.size := (List.getElem?_eq_some_iff.mp hd).1
  rw [cycleOf?]
  cases hcycle : r.baseLinks.cycle? i with
  | none =>
    rw [Option.map_none]
    refine ⟨nofun, ?_⟩
    rintro ⟨hc, hleads⟩
    obtain ⟨k, hik, hk⟩ := BaseLinks.cycle?_eq_none hcycle
    obtain ⟨n, hdn, hends⟩ := exists_end hi hik hk
    rw [hname] at hdn
    obtain ⟨m, hstep⟩ := hleads.exists_extends hc hdn
    exact (hends m hstep).elim
  | some cycle =>
    obtain ⟨hloop, hreached⟩ := BaseLinks.cycle?_eq_some hcycle
    have hwritten := written_isCycle hloop
    have hleads : r.LeadsInto d.name (r.written cycle) := by
      obtain ⟨j, hj⟩ := List.exists_mem_of_ne_nil cycle hloop.nonempty
      exact ⟨r.nameAt j, mem_written hj, hname ▸ reaches_of_steps (hreached j hj)⟩
    rw [Option.map_some, Option.some.injEq]
    constructor
    · rintro rfl
      exact ⟨hwritten, hleads⟩
    · rintro ⟨hc, hdc⟩
      exact hwritten.eq_of_leadsInto hc hleads hdc

/-- The failure that reports a cycle: around to the first member, at whose place it is. -/
def cycleFault (r : Registry) (cycle : List Name) : Error :=
  .inheritanceCycle (cycle ++ cycle.take 1) ((cycle.head?.bind r.find?).bind (·.location))

theorem cycleError_eq {cycle : List Nat} (h : IsLoop r.baseLinks.Steps cycle) :
    r.cycleError cycle = r.cycleFault (r.written cycle) := by
  obtain ⟨rest, hrotate, hloop, -⟩ := exists_rotated h
  have hlt := lt_of_mem_loop hloop List.mem_cons_self
  rw [cycleError, cycleFault, written, hrotate, List.map_cons, List.head?_cons, Option.bind_some,
    find?_nameAt hlt, List.map_append]
  rfl

end Registry

end Lowering
