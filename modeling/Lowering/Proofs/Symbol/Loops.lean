import Mathlib.Data.List.Cycle
import Mathlib.Logic.Relation

/-! Loops of a relation with at most one successor.

Where everything has at most one successor, there is one way to go on from a place. Whoever
enters a loop stays in it (`IsLoop.mem_of_reaches`), so that no place leads into two loops
(`IsLoop.mem_iff`), and a loop is known by the place it is entered at (`IsLoop.eq_of_cons`). -/
namespace Lowering

open Relation

variable {α β : Type} {r : α → α → Prop} {l l' : List α} {a b x : α}

/-- On a way each place but the last is followed by another. -/
theorem exists_next {r : α → α → Prop} (h : (l ++ [a]).IsChain r) {b : α} (hb : b ∈ l) : ∃ c, r b c := by
  obtain ⟨before, after, rfl⟩ := List.append_of_mem hb
  rw [List.append_assoc] at h
  have htail := (List.isChain_append.mp h).2.1
  cases after with
  | nil => exact ⟨a, (List.isChain_cons_cons.mp htail).1⟩
  | cons c rest => exact ⟨c, (List.isChain_cons_cons.mp htail).1⟩

/-- Every member is followed by the next one and the last by the first, no member twice. -/
structure IsLoop (r : α → α → Prop) (l : List α) : Prop where
  nonempty : l ≠ []
  distinct : l.Nodup
  closed : Cycle.Chain r (l : Cycle α)

namespace IsLoop

theorem cons_iff : IsLoop r (a :: l) ↔ (a :: l).Nodup ∧ List.IsChain r (a :: (l ++ [a])) := by
  rw [← Cycle.chain_coe_cons]
  exact ⟨fun h => ⟨h.distinct, h.closed⟩, fun h => ⟨List.cons_ne_nil a l, h.1, h.2⟩⟩

/-- A loop may be written from any of its members. -/
theorem rotate (h : IsLoop r (l ++ l')) : IsLoop r (l' ++ l) where
  nonempty := fun hnil => h.nonempty (List.append_eq_nil_iff.mpr (List.append_eq_nil_iff.mp hnil).symm)
  distinct := (List.perm_append_comm.nodup_iff).mp h.distinct
  closed := by
    have hrotated : List.IsRotated (l' ++ l) (l ++ l') := List.isRotated_append
    exact Cycle.coe_eq_coe.mpr hrotated ▸ h.closed

theorem map {s : β → β → Prop} {f : α → β} (h : IsLoop r l) (hf : ∀ a b, r a b → s (f a) (f b))
    (hinj : ∀ a ∈ l, ∀ b ∈ l, f a = f b → a = b) : IsLoop s (l.map f) where
  nonempty := fun hnil => h.nonempty (List.map_eq_nil_iff.mp hnil)
  distinct := h.distinct.map_on hinj
  closed := (Cycle.chain_map f).mpr (h.closed.imp hf)

theorem successor (h : IsLoop r l) (ha : a ∈ l) : ∃ b ∈ l, r a b := by
  obtain ⟨before, after, rfl⟩ := List.append_of_mem ha
  have hround : IsLoop r (a :: (after ++ before)) := h.rotate
  obtain ⟨-, hchain⟩ := cons_iff.mp hround
  have hmem {b : α} : b ∈ after ++ before ++ [a] → b ∈ before ++ a :: after := by
    simp only [List.mem_append, List.mem_cons, List.not_mem_nil]
    tauto
  cases hrest : after ++ before ++ [a] with
  | nil => exact absurd (List.append_eq_nil_iff.mp hrest).2 (List.cons_ne_nil a [])
  | cons b rest =>
    rw [hrest] at hchain
    refine ⟨b, hmem (hrest ▸ List.mem_cons_self), ?_⟩
    exact (List.isChain_cons_cons.mp hchain).1

/-- Going round, every member is reached from every member. -/
theorem around (h : IsLoop r l) (ha : a ∈ l) (hb : b ∈ l) : TransGen r a b :=
  Cycle.chain_iff_pairwise.mp (h.closed.imp fun _ _ => TransGen.single) a ha b hb

section
variable (hr : Relator.RightUnique r)
include hr

/-- What leaves a loop does not leave it. -/
theorem mem_of_reaches (h : IsLoop r l) (ha : a ∈ l) (hab : ReflTransGen r a b) : b ∈ l := by
  induction hab with
  | refl => exact ha
  | tail _ hstep ih =>
    obtain ⟨b', hb', hstep'⟩ := h.successor ih
    exact hr hstep hstep' ▸ hb'

theorem subset_of_meet (h : IsLoop r l) (h' : IsLoop r l') (hx : x ∈ l) (hx' : x ∈ l') : l ⊆ l' :=
  fun _ ha => h'.mem_of_reaches hr hx' (h.around hx ha).to_reflTransGen

/-- No place leads into two loops. -/
theorem mem_iff (h : IsLoop r l) (h' : IsLoop r l') (ha : a ∈ l) (hxa : ReflTransGen r x a)
    (hb : b ∈ l') (hxb : ReflTransGen r x b) (n : α) : n ∈ l ↔ n ∈ l' := by
  have hmeet : ∃ y, y ∈ l ∧ y ∈ l' := by
    obtain hab | hba := hxa.total_of_right_unique hr hxb
    · exact ⟨b, h.mem_of_reaches hr ha hab, hb⟩
    · exact ⟨a, ha, h'.mem_of_reaches hr hb hba⟩
  obtain ⟨y, hy, hy'⟩ := hmeet
  exact ⟨fun hn => h.subset_of_meet hr h' hy hy' hn, fun hn => h'.subset_of_meet hr h hy' hy hn⟩

/-- Two ways to one place that do not pass it before are the same. -/
theorem eq_of_chains (h : List.IsChain r (x :: (l ++ [a]))) (h' : List.IsChain r (x :: (l' ++ [a])))
    (ha : a ∉ l) (ha' : a ∉ l') : l = l' := by
  induction l generalizing x l' with
  | nil =>
    cases l' with
    | nil => rfl
    | cons b' rest' =>
      have hxa := (List.isChain_cons_cons.mp h).1
      have hxb' := (List.isChain_cons_cons.mp h').1
      exact absurd (hr hxa hxb' ▸ List.mem_cons_self) ha'
  | cons b rest ih =>
    obtain ⟨hxb, hrest⟩ := List.isChain_cons_cons.mp h
    cases l' with
    | nil =>
      have hxa := (List.isChain_cons_cons.mp h').1
      exact absurd (hr hxa hxb ▸ List.mem_cons_self) ha
    | cons b' rest' =>
      obtain ⟨hxb', hrest'⟩ := List.isChain_cons_cons.mp h'
      obtain rfl := hr hxb hxb'
      have htails := ih hrest hrest' (fun hmem => ha (List.mem_cons_of_mem b hmem)) fun hmem =>
        ha' (List.mem_cons_of_mem b hmem)
      rw [htails]

/-- A loop is known by its first member. -/
theorem eq_of_cons (h : IsLoop r (a :: l)) (h' : IsLoop r (a :: l')) : l = l' := by
  obtain ⟨hnodup, hchain⟩ := cons_iff.mp h
  obtain ⟨hnodup', hchain'⟩ := cons_iff.mp h'
  exact eq_of_chains hr hchain hchain' (List.nodup_cons.mp hnodup).1 (List.nodup_cons.mp hnodup').1

end

end IsLoop

/-- Who comes back to a place comes back to it from wherever the way leads. -/
theorem returns (hr : Relator.RightUnique r) (haa : TransGen r a a) (hab : ReflTransGen r a b) :
    TransGen r b a := by
  induction hab with
  | refl => exact haa
  | tail _ hstep ih =>
    obtain ⟨c, hbc, hca⟩ := TransGen.head'_iff.mp ih
    obtain rfl := hr hbc hstep
    exact TransGen.trans_right hca haa

end Lowering
