import Lowering.Proofs.Source.Reachability
import Mathlib.Data.List.Flatten
import Mathlib.Data.List.Perm.Subperm

/-! The order in which a tree is listed.

The listing is a loop over a stack of keys. A turn takes the key on top, drops it if it was met
before, and else puts the children of its node on the stack, the last child first. A key that is on
the stack twice is dropped when it is taken for the second time, so that every key that is put on
the stack takes one turn, and the loop ends on every tree (`ends_reach`). Whatever the top of the
stack leads to is listed before the rest is looked at, as in the recursion that lists a node before
it follows its children in order (`reach_append`). So the listing of a tree is its pre-order
(`listed_in_preorder`). -/
namespace Lowering.Tree

variable {t : Tree}

/-! ### The loop -/

/-- Where the loop stands. -/
structure Search where
  seen : List NodeKey
  /-- The keys to look at; the last one is on top. -/
  stack : List NodeKey
  listed : List Node

/-- How many children nodes have. -/
def links (nodes : List Node) : Nat := (nodes.flatMap (·.children)).length

namespace Search

variable (t)

def start : Search := ⟨[], [t.root], []⟩

/-- Looks at the key on top of the stack; there is no turn to take where the stack is empty. -/
def turn (s : Search) : Option Search :=
  s.stack.getLast?.map fun key =>
    if key ∈ s.seen then { s with stack := s.stack.dropLast }
    else match t.latest? key with
      | none => ⟨key :: s.seen, s.stack.dropLast, s.listed⟩
      | some n => ⟨key :: s.seen, s.stack.dropLast ++ n.children.reverse, s.listed ++ [n]⟩

/-- After a number of turns there is none left to take. -/
inductive Ends : (turns : Nat) → (s last : Search) → Prop
  | here {s : Search} (h : s.turn t = none) : Ends 0 s s
  | turn {turns : Nat} {s s' last : Search} (h : s.turn t = some s') (hrest : Ends turns s' last) :
    Ends (turns + 1) s last

variable {t} {seen stack : List NodeKey} {listed : List Node} {key : NodeKey}

theorem turn_nil : turn t ⟨seen, [], listed⟩ = none := rfl

theorem turn_seen (h : key ∈ seen) :
    turn t ⟨seen, (key :: stack).reverse, listed⟩ = some ⟨seen, stack.reverse, listed⟩ := by
  simp [turn, h]

theorem turn_missing (h : key ∉ seen) (hnone : t.latest? key = none) :
    turn t ⟨seen, (key :: stack).reverse, listed⟩ = some ⟨key :: seen, stack.reverse, listed⟩ := by
  simp [turn, h, hnone]

theorem turn_node {n : Node} (h : key ∉ seen) (hn : t.latest? key = some n) :
    turn t ⟨seen, (key :: stack).reverse, listed⟩ =
      some ⟨key :: seen, (n.children ++ stack).reverse, listed ++ [n]⟩ := by
  simp [turn, h, hn]

/-- Every key that is on the stack or put there takes one turn, and no other turn is taken. -/
theorem ends_reach (seen stack : List NodeKey) (listed : List Node) :
    ∃ last, Ends t (stack.length + links (t.reach seen stack)) ⟨seen, stack.reverse, listed⟩ last ∧
      last.listed = listed ++ t.reach seen stack := by
  induction seen, stack using Tree.reach.induct t generalizing listed with
  | case1 seen => exact ⟨_, by rw [reach]; exact .here turn_nil, by simp [reach]⟩
  | case2 seen key rest hseen ih =>
    obtain ⟨last, hends, hlast⟩ := ih listed
    rw [reach_seen hseen, List.length_cons, Nat.succ_add]
    exact ⟨last, .turn (turn_seen hseen) hends, hlast⟩
  | case3 seen key rest hseen hnone ih =>
    obtain ⟨last, hends, hlast⟩ := ih listed
    rw [reach_missing hseen hnone, List.length_cons, Nat.succ_add]
    exact ⟨last, .turn (turn_missing hseen hnone) hends, hlast⟩
  | case4 seen key rest hseen n hn ih =>
    obtain ⟨last, hends, hlast⟩ := ih (listed ++ [n])
    have hturns : (key :: rest).length + links (n :: t.reach (key :: seen) (n.children ++ rest)) =
        (n.children ++ rest).length + links (t.reach (key :: seen) (n.children ++ rest)) + 1 := by
      simp only [links, List.flatMap_cons, List.length_cons, List.length_append]
      omega
    rw [reach_node hseen hn, hturns]
    exact ⟨last, .turn (turn_node hseen hn) hends, by simpa using hlast⟩

end Search

/-! ### The recursion -/

/-- What a recursion gives that starts with some keys visited. -/
structure Listing (seen : List NodeKey) where
  listed : List Node
  /-- The keys that are visited at its end. -/
  visited : List NodeKey
  seen_subset : seen ⊆ visited

/-- Visiting a node for the first time, and whatever else, leaves fewer to list. -/
theorem unlisted_lt_of_visited {seen visited : List NodeKey} {key : NodeKey} {n : Node}
    (hn : t.get? key = some n) (h : key ∉ seen) (hvisited : key :: seen ⊆ visited) :
    t.unlisted visited < t.unlisted seen := by
  obtain ⟨hmem, rfl⟩ := get?_mem hn
  refine Nat.lt_of_le_of_lt (List.countP_mono_left fun m _ hm => ?_) (unlisted_lt hmem h)
  simp only [decide_eq_true_eq] at hm ⊢
  exact fun hseen => hm (hvisited hseen)

/-- Visits keys in order, but none that is visited already. A visit to a node lists it and then
visits its children. -/
def preorderFrom (t : Tree) (seen : List NodeKey) (keys : List NodeKey) : Listing seen :=
  match keys with
  | [] => ⟨[], seen, List.Subset.refl seen⟩
  | key :: rest =>
    if _ : key ∈ seen then t.preorderFrom seen rest
    else match _ : t.get? key with
      | none =>
        let after := t.preorderFrom (key :: seen) rest
        ⟨after.listed, after.visited, List.Subset.trans (List.subset_cons_self key seen) after.seen_subset⟩
      | some n =>
        let below := t.preorderFrom (key :: seen) n.children
        let after := t.preorderFrom below.visited rest
        ⟨n :: (below.listed ++ after.listed), after.visited,
          List.Subset.trans (List.subset_cons_self key seen)
            (List.Subset.trans below.seen_subset after.seen_subset)⟩
termination_by (t.unlisted seen, keys.length)
decreasing_by
  · exact Prod.Lex.right _ (Nat.lt_succ_self _)
  · rcases Nat.lt_or_eq_of_le (t.unlisted_le seen key) with hlt | heq
    · exact Prod.Lex.left _ _ hlt
    · rw [heq]
      exact Prod.Lex.right _ (Nat.lt_succ_self _)
  · exact Prod.Lex.left _ _ (unlisted_lt_of_visited ‹_› ‹_› (List.Subset.refl _))
  · exact Prod.Lex.left _ _ (unlisted_lt_of_visited ‹_› ‹_› below.seen_subset)

/-- The nodes that the recursion from the root lists. -/
def preorder (t : Tree) : List Node := (t.preorderFrom [] [t.root]).listed

section
variable {seen : List NodeKey} {key : NodeKey} (rest : List NodeKey)

theorem preorderFrom_seen (h : key ∈ seen) :
    t.preorderFrom seen (key :: rest) = t.preorderFrom seen rest := by
  rw [preorderFrom, dif_pos h]

theorem preorderFrom_missing (h : key ∉ seen) (hnone : t.get? key = none) :
    (t.preorderFrom seen (key :: rest)).listed = (t.preorderFrom (key :: seen) rest).listed ∧
      (t.preorderFrom seen (key :: rest)).visited = (t.preorderFrom (key :: seen) rest).visited := by
  rw [preorderFrom, dif_neg h]
  split
  · exact ⟨rfl, rfl⟩
  · simp_all

theorem preorderFrom_node {n : Node} (h : key ∉ seen) (hn : t.get? key = some n) :
    (t.preorderFrom seen (key :: rest)).listed =
        n :: ((t.preorderFrom (key :: seen) n.children).listed ++
          (t.preorderFrom (t.preorderFrom (key :: seen) n.children).visited rest).listed) ∧
      (t.preorderFrom seen (key :: rest)).visited =
        (t.preorderFrom (t.preorderFrom (key :: seen) n.children).visited rest).visited := by
  rw [preorderFrom, dif_neg h]
  split
  · simp_all
  next m hm =>
    obtain rfl := Option.some.inj (hm.symm.trans hn)
    exact ⟨rfl, rfl⟩

end

/-- The loop lists what the top of its stack leads to as the recursion does, and goes on with the
keys that are visited then. -/
theorem reach_append (ht : t.Distinct) (seen keys rest : List NodeKey) :
    t.reach seen (keys ++ rest) =
      (t.preorderFrom seen keys).listed ++ t.reach (t.preorderFrom seen keys).visited rest := by
  induction seen, keys using Tree.preorderFrom.induct t generalizing rest with
  | case1 seen =>
    rw [preorderFrom]
    rfl
  | case2 seen key keys hseen ih => rw [List.cons_append, reach_seen hseen, preorderFrom_seen keys hseen, ih]
  | case3 seen key keys hseen hnone ih =>
    obtain ⟨hlisted, hvisited⟩ := preorderFrom_missing keys hseen hnone
    rw [List.cons_append, reach_missing hseen ((latest?_eq_get? ht key).trans hnone), hlisted, hvisited, ih]
  | case4 seen key keys hseen n hn below ihbelow ihafter =>
    obtain ⟨hlisted, hvisited⟩ := preorderFrom_node keys hseen hn
    -- The children come before the other keys of the stack, and these before its rest.
    rw [List.cons_append, reach_node hseen ((latest?_eq_get? ht key).trans hn), ihbelow, ihafter, hlisted,
      hvisited, List.cons_append, List.append_assoc]

theorem reachable_eq_preorder (ht : t.Distinct) : t.reachable = t.preorder := by
  have happend := reach_append ht [] [t.root] []
  rwa [List.append_nil, reach, List.append_nil] at happend

/-! ### The arena -/

/-- A node with the key `a` has a child `b`. -/
def Refers (t : Tree) (a b : NodeKey) : Prop := ∃ n ∈ t.nodes, n.key = a ∧ b ∈ n.children

theorem child_iff_refers (ht : t.Distinct) {a b : NodeKey} : t.Child a b ↔ t.Refers a b := by
  constructor
  · intro h
    obtain ⟨n, hn, hb⟩ := h
    obtain ⟨hmem, hkey⟩ := latest?_mem hn
    exact ⟨n, hmem, hkey, hb⟩
  · intro h
    obtain ⟨n, hmem, rfl, hb⟩ := h
    exact ⟨n, (latest?_eq_get? ht n.key).trans (get?_of_mem ht hmem), hb⟩

theorem mem_reachable_iff (ht : t.Distinct) {n : Node} :
    n ∈ t.reachable ↔ n ∈ t.nodes ∧ Relation.ReflTransGen t.Refers t.root n.key := by
  have hchild : t.Child = t.Refers := funext₂ fun a b => propext (child_iff_refers ht)
  rw [mem_reachable, LeadsTo, hchild]
  refine and_congr_left fun _ => ⟨fun h => (latest?_mem h).1, fun h => ?_⟩
  exact (latest?_eq_get? ht n.key).trans (get?_of_mem ht h)

/-- No node is listed twice, and so the listed nodes have no more children than all nodes have. -/
theorem links_reachable_le (t : Tree) : links t.reachable ≤ links t.nodes := by
  have hnodup : t.reachable.Nodup := .of_map _ reachable_nodup
  have hsubset : t.reachable ⊆ t.nodes := fun n hn => (latest?_mem (latest?_of_mem_reachable hn)).1
  obtain ⟨listed, hperm, hsublist⟩ := List.subperm_of_subset hnodup hsubset
  have hlength := (hsublist.flatMap (·.children)).length_le
  rwa [(hperm.flatMap_right (·.children)).length_eq] at hlength

/-- **The listing ends on every tree, after one turn for the root and one for each child of the nodes
that it lists. Where keys are used once, it lists the nodes that the arena leads to from the root, each
once and in pre-order.** -/
theorem listed_in_preorder (t : Tree) :
    (∃ last, Search.Ends t (1 + links t.reachable) (Search.start t) last ∧ last.listed = t.reachable) ∧
      links t.reachable ≤ links t.nodes ∧
      (t.Distinct →
        (∀ n, n ∈ t.reachable ↔ n ∈ t.nodes ∧ Relation.ReflTransGen t.Refers t.root n.key) ∧
        (t.reachable.map (·.key)).Nodup ∧ t.reachable = t.preorder) := by
  refine ⟨?_, links_reachable_le t, fun ht => ?_⟩
  · exact Search.ends_reach [] [t.root] []
  · exact ⟨fun n => mem_reachable_iff ht, reachable_nodup, reachable_eq_preorder ht⟩

/-- A view with a panel and a label that refer to each other, a box that holds the view itself, a
child that is missing, and a button that nothing holds. -/
def tangledView : Tree where
  root := ⟨0⟩
  nodes := [
    { key := ⟨0⟩, target := ⟨"ui.View"⟩
      properties := [⟨"header", .node ⟨2⟩⟩, ⟨"beads", .nodes [⟨1⟩, ⟨9⟩]⟩], content := [⟨2⟩, ⟨3⟩] },
    { key := ⟨1⟩, target := ⟨"ui.Box"⟩, content := [⟨0⟩, ⟨3⟩] },
    { key := ⟨2⟩, target := ⟨"ui.Panel"⟩, content := [⟨3⟩] },
    { key := ⟨3⟩, target := ⟨"ui.Label"⟩, properties := [⟨"labelFor", .node ⟨2⟩⟩] },
    { key := ⟨4⟩, target := ⟨"ui.Button"⟩, content := [⟨3⟩] }]

/-- The label is listed below the panel, before the box, and the loop takes a turn for each of the
nine children that it meets besides the root. -/
theorem tangledView_in_preorder :
    tangledView.Distinct ∧ tangledView.Refers ⟨2⟩ ⟨3⟩ ∧ tangledView.Refers ⟨3⟩ ⟨2⟩ ∧
      (∃ last, Search.Ends tangledView 10 (Search.start tangledView) last ∧
        last.listed = tangledView.reachable) ∧
      tangledView.preorder.map (·.key) = [⟨0⟩, ⟨2⟩, ⟨3⟩, ⟨1⟩] ∧
      tangledView.reachable = tangledView.preorder := by
  have hdistinct : tangledView.Distinct := by
    rw [Distinct]
    decide
  have hkeys : tangledView.reachable.map (·.key) = [⟨0⟩, ⟨2⟩, ⟨3⟩, ⟨1⟩] := by
    cbv
  have hlinks : links tangledView.reachable = 9 := by
    cbv
  obtain ⟨hends, -, hlisted⟩ := listed_in_preorder tangledView
  obtain ⟨-, -, hpreorder⟩ := hlisted hdistinct
  rw [hlinks] at hends
  refine ⟨hdistinct, ⟨_, .tail _ (.tail _ (.head _)), rfl, by decide⟩,
    ⟨_, .tail _ (.tail _ (.tail _ (.head _))), rfl, by decide⟩, hends, ?_, hpreorder⟩
  rw [← hpreorder, hkeys]

end Lowering.Tree
