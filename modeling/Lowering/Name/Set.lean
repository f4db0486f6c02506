import Lowering.Name

/-! Ordered sets of names.

A dependency set is listed in the order of names and holds no name twice. The
list is kept strictly ascending, so that both are read off the type. -/
namespace Lowering

/-- A set of names, listed in ascending order. -/
structure NameSet where
  names : List Name
  ascending : names.Pairwise (· < ·) := by exact .nil

namespace NameSet

def empty : NameSet := ⟨[], .nil⟩

instance : Inhabited NameSet := ⟨empty⟩

instance : Membership Name NameSet := ⟨fun s n => n ∈ s.names⟩

instance (n : Name) (s : NameSet) : Decidable (n ∈ s) :=
  inferInstanceAs (Decidable (n ∈ s.names))

/-- Puts `n` at its place in an ascending list that does not hold it yet. -/
def place (n : Name) : List Name → List Name
  | [] => [n]
  | m :: rest =>
    if n < m then n :: m :: rest
    else if n = m then m :: rest
    else m :: place n rest

theorem mem_place {n a : Name} {l : List Name} : a ∈ place n l ↔ a = n ∨ a ∈ l := by
  induction l with
  | nil => simp [place]
  | cons m rest ih =>
    unfold place
    split
    · simp
    · split
      next h => simp [h]
      next => simp [ih, or_left_comm]

theorem place_ascending {n : Name} {l : List Name} (h : l.Pairwise (· < ·)) :
    (place n l).Pairwise (· < ·) := by
  induction l with
  | nil => simp [place]
  | cons m rest ih =>
    obtain ⟨hm, hrest⟩ := List.pairwise_cons.mp h
    unfold place
    split
    next hlt =>
      refine List.pairwise_cons.mpr ⟨fun a ha => ?_, h⟩
      rcases List.mem_cons.mp ha with rfl | ha
      · exact hlt
      · exact Name.lt_trans hlt (hm a ha)
    next hnlt =>
      split
      · exact h
      next hne =>
        refine List.pairwise_cons.mpr ⟨fun a ha => ?_, ih hrest⟩
        rcases mem_place.mp ha with rfl | ha
        · exact (Name.lt_or_eq_or_gt a m).resolve_left hnlt |>.resolve_left hne
        · exact hm a ha

def insert (s : NameSet) (n : Name) : NameSet :=
  ⟨place n s.names, place_ascending s.ascending⟩

def insertAll (s : NameSet) (ns : List Name) : NameSet :=
  ns.foldl insert s

def ofList (ns : List Name) : NameSet :=
  empty.insertAll ns

/-- The members that satisfy `keep`. -/
def filter (keep : Name → Bool) (s : NameSet) : NameSet :=
  ⟨s.names.filter keep, s.ascending.filter keep⟩

/-! ### Members -/

theorem not_mem_empty (a : Name) : a ∉ empty := List.not_mem_nil

theorem mem_insert {s : NameSet} {n a : Name} : a ∈ s.insert n ↔ a = n ∨ a ∈ s :=
  mem_place

theorem mem_insertAll {s : NameSet} {ns : List Name} {a : Name} :
    a ∈ s.insertAll ns ↔ a ∈ s ∨ a ∈ ns := by
  induction ns generalizing s with
  | nil => simp [insertAll]
  | cons n rest ih =>
    show a ∈ (s.insert n).insertAll rest ↔ _
    rw [ih, mem_insert, List.mem_cons]
    constructor
    · rintro ((h | h) | h)
      · exact .inr (.inl h)
      · exact .inl h
      · exact .inr (.inr h)
    · rintro (h | h | h)
      · exact .inl (.inr h)
      · exact .inl (.inl h)
      · exact .inr h

theorem mem_ofList {ns : List Name} {a : Name} : a ∈ ofList ns ↔ a ∈ ns := by
  simp [ofList, mem_insertAll, not_mem_empty]

theorem mem_filter {s : NameSet} {keep : Name → Bool} {a : Name} :
    a ∈ s.filter keep ↔ a ∈ s ∧ keep a = true :=
  List.mem_filter

end NameSet

end Lowering
