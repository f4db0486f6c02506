import Lowering.Source.Tree
import Mathlib.Data.List.Basic
import Mathlib.Data.List.Flatten

/-! The unfolding of a tree.

Following the children of a key, and theirs in turn, unfolds the tree below it. Where keys
are shared or lead back to themselves they are met again, so the unfolding lists a key each
time it is met and may go on for ever; `unfold` cuts it off after a number of levels. Once a
level is empty nothing comes below it, and the unfolding that is cut off there is the whole
of it (`unfold_of_level_nil`). -/
namespace Lowering.Tree

variable (t : Tree)

/-- The children of the node with a key; there are none where the node is missing. -/
def childrenOf (key : NodeKey) : List NodeKey := (t.get? key).toList.flatMap (·.children)

/-- What stands a number of levels below a key, from left to right. -/
def level : (depth : Nat) → NodeKey → List NodeKey
  | 0, key => [key]
  | depth + 1, key => (t.childrenOf key).flatMap (level depth)

/-- The first levels of what a key unfolds to, in pre-order. -/
def unfold : (levels : Nat) → NodeKey → List NodeKey
  | 0, _ => []
  | levels + 1, key => key :: (t.childrenOf key).flatMap (unfold levels)

/-- The unfolding of the root meets the key. -/
def Unfolds (key : NodeKey) : Prop := ∃ levels, key ∈ t.unfold levels t.root

variable {t} {levels more : Nat} {key : NodeKey}

theorem childrenOf_get? {n : Node} (h : t.get? key = some n) : t.childrenOf key = n.children := by
  rw [childrenOf, h, Option.toList_some, List.flatMap_singleton]

/-- A level is empty where the one above it is empty below each child. -/
theorem level_succ_eq_nil :
    t.level (levels + 1) key = [] ↔ ∀ child ∈ t.childrenOf key, t.level levels child = [] :=
  List.flatMap_eq_nil_iff

/-- Nothing comes below an empty level. -/
theorem level_eq_nil_of_le (h : t.level levels key = []) (hle : levels ≤ more) :
    t.level more key = [] := by
  induction levels generalizing more key with
  | zero => exact absurd h (List.cons_ne_nil _ _)
  | succ levels ih =>
    obtain ⟨more, rfl⟩ := Nat.exists_eq_add_of_le' (Nat.one_le_of_lt hle)
    have hchildren := level_succ_eq_nil.mp h
    exact level_succ_eq_nil.mpr fun child hchild =>
      ih (hchildren child hchild) (Nat.le_of_succ_le_succ hle)

/-- More levels list what fewer do. -/
theorem unfold_sublist (hle : levels ≤ more) : (t.unfold levels key).Sublist (t.unfold more key) := by
  induction levels generalizing more key with
  | zero => exact List.nil_sublist _
  | succ levels ih =>
    obtain ⟨more, rfl⟩ := Nat.exists_eq_add_of_le' (Nat.one_le_of_lt hle)
    exact (List.Sublist.flatMap_right _ fun _ _ => ih (Nat.le_of_succ_le_succ hle)).cons_cons key

/-- From an empty level on, more levels add nothing. -/
theorem unfold_of_level_nil (h : t.level levels key = []) (hle : levels ≤ more) :
    t.unfold more key = t.unfold levels key := by
  induction levels generalizing more key with
  | zero => exact absurd h (List.cons_ne_nil _ _)
  | succ levels ih =>
    obtain ⟨more, rfl⟩ := Nat.exists_eq_add_of_le' (Nat.one_le_of_lt hle)
    have hchildren := level_succ_eq_nil.mp h
    exact congrArg (key :: ·) (List.flatMap_congr fun child hchild =>
      ih (hchildren child hchild) (Nat.le_of_succ_le_succ hle))

/-- Every cut of an unfolding with an empty level is part of the one at that level. -/
theorem unfold_sublist_of_level_nil (h : t.level levels key = []) (more : Nat) :
    (t.unfold more key).Sublist (t.unfold levels key) := by
  rcases Nat.le_total more levels with hle | hle
  · exact unfold_sublist hle
  · rw [unfold_of_level_nil h hle]

theorem unfolds_iff_mem (h : t.level levels t.root = []) :
    t.Unfolds key ↔ key ∈ t.unfold levels t.root := by
  constructor
  · intro hunfolds
    obtain ⟨more, hmem⟩ := hunfolds
    exact (unfold_sublist_of_level_nil h more).subset hmem
  · exact fun hmem => ⟨levels, hmem⟩

end Lowering.Tree
