import Lowering.Source.Tree
import Mathlib.Logic.Relation
import Mathlib.Data.List.Nodup

/-! What a tree's root leads to.

The traversal keeps a stack of keys and the keys it has listed. Three facts about one
call of it carry everything: no key is listed twice, what is listed is led to from the
stack, and of what the stack or a listed node leads to, nothing is forgotten. Together
they make the listing of a tree the set of its nodes that child links lead to from the
root (`mem_reachable`). -/
namespace Lowering.Tree

variable {t : Tree}

/-- The node at `a` has a child `b`, which need not exist. -/
def Child (t : Tree) (a b : NodeKey) : Prop := ∃ n, t.latest? a = some n ∧ b ∈ n.children

/-- A key that is led to by children, one below the other. -/
abbrev LeadsTo (t : Tree) : NodeKey → NodeKey → Prop := Relation.ReflTransGen t.Child

/-! ### Keys that are used once -/

/-- No two nodes have one key. -/
def Distinct (t : Tree) : Prop := (t.nodes.map (·.key)).Nodup

theorem get?_mem {key : NodeKey} {n : Node} (h : t.get? key = some n) : n ∈ t.nodes ∧ n.key = key :=
  ⟨List.mem_of_find?_eq_some h, by simpa using List.find?_some h⟩

/-- Where keys are used once, the first entry with a key is the only one. -/
theorem find?_of_mem {α κ : Type} [DecidableEq κ] {key : α → κ} {l : List α} (h : (l.map key).Nodup)
    {a : α} (ha : a ∈ l) : l.find? (key · = key a) = some a := by
  obtain ⟨b, hb⟩ : ∃ b, l.find? (key · = key a) = some b :=
    Option.isSome_iff_exists.mp (List.find?_isSome.mpr ⟨a, ha, by simp⟩)
  have hkey : key b = key a := by simpa using List.find?_some hb
  rw [hb, List.inj_on_of_nodup_map h (List.mem_of_find?_eq_some hb) ha hkey]

theorem get?_of_mem (ht : t.Distinct) {n : Node} (hn : n ∈ t.nodes) : t.get? n.key = some n :=
  find?_of_mem ht hn

/-- Where keys are used once, the last node with a key is the first. -/
theorem latest?_eq_get? (ht : t.Distinct) (key : NodeKey) : t.latest? key = t.get? key := by
  cases h : t.latest? key with
  | some n =>
    obtain ⟨hmem, rfl⟩ := latest?_mem h
    exact (get?_of_mem ht hmem).symm
  | none =>
    have hnone := List.find?_eq_none.mp h
    exact (List.find?_eq_none.mpr fun n hn => hnone n (List.mem_reverse.mpr hn)).symm

/-! ### One step of the traversal -/

theorem reach_seen {seen rest : List NodeKey} {key : NodeKey} (h : key ∈ seen) :
    t.reach seen (key :: rest) = t.reach seen rest := by
  rw [reach, dif_pos h]

theorem reach_missing {seen rest : List NodeKey} {key : NodeKey} (h : key ∉ seen)
    (hnone : t.latest? key = none) :
    t.reach seen (key :: rest) = t.reach (key :: seen) rest := by
  rw [reach, dif_neg h]
  split
  · rfl
  · simp_all

theorem reach_node {seen rest : List NodeKey} {key : NodeKey} {n : Node} (h : key ∉ seen)
    (hn : t.latest? key = some n) :
    t.reach seen (key :: rest) = n :: t.reach (key :: seen) (n.children ++ rest) := by
  rw [reach, dif_neg h]
  split
  · simp_all
  · simp_all

/-! ### One call of the traversal -/

/-- What is listed is new, and it is the node that its key stands for. -/
theorem reach_fresh (seen stack : List NodeKey) :
    ∀ n ∈ t.reach seen stack, n.key ∉ seen ∧ t.latest? n.key = some n := by
  induction seen, stack using Tree.reach.induct t with
  | case1 seen => simp [reach]
  | case2 seen key rest hseen ih =>
    rw [reach_seen hseen]
    exact ih
  | case3 seen key rest hseen hnone ih =>
    rw [reach_missing hseen hnone]
    exact fun n hn => ⟨fun hk => (ih n hn).1 (List.mem_cons_of_mem key hk), (ih n hn).2⟩
  | case4 seen key rest hseen m hm ih =>
    rw [reach_node hseen hm]
    obtain ⟨-, rfl⟩ := latest?_mem hm
    intro n hn
    rcases List.mem_cons.mp hn with rfl | hn
    · exact ⟨hseen, hm⟩
    · exact ⟨fun hk => (ih n hn).1 (List.mem_cons_of_mem _ hk), (ih n hn).2⟩

theorem reach_nodup (seen stack : List NodeKey) : ((t.reach seen stack).map (·.key)).Nodup := by
  induction seen, stack using Tree.reach.induct t with
  | case1 seen => simp [reach]
  | case2 seen key rest hseen ih => rwa [reach_seen hseen]
  | case3 seen key rest hseen hnone ih => rwa [reach_missing hseen hnone]
  | case4 seen key rest hseen m hm ih =>
    rw [reach_node hseen hm, List.map_cons]
    refine List.nodup_cons.mpr ⟨fun hmem => ?_, ih⟩
    obtain ⟨n, hn, hkey⟩ := List.mem_map.mp hmem
    obtain ⟨-, rfl⟩ := latest?_mem hm
    exact (reach_fresh _ _ n hn).1 (hkey ▸ List.mem_cons_self)

/-- What is listed is led to from the stack. -/
theorem reach_sound (seen stack : List NodeKey) :
    ∀ n ∈ t.reach seen stack, ∃ k ∈ stack, t.LeadsTo k n.key := by
  induction seen, stack using Tree.reach.induct t with
  | case1 seen => simp [reach]
  | case2 seen key rest hseen ih =>
    rw [reach_seen hseen]
    intro n hn
    obtain ⟨k, hk, hlead⟩ := ih n hn
    exact ⟨k, List.mem_cons_of_mem key hk, hlead⟩
  | case3 seen key rest hseen hnone ih =>
    rw [reach_missing hseen hnone]
    intro n hn
    obtain ⟨k, hk, hlead⟩ := ih n hn
    exact ⟨k, List.mem_cons_of_mem key hk, hlead⟩
  | case4 seen key rest hseen m hm ih =>
    rw [reach_node hseen hm]
    intro n hn
    rcases List.mem_cons.mp hn with rfl | hn
    · obtain ⟨-, rfl⟩ := latest?_mem hm
      exact ⟨_, List.mem_cons_self, .refl⟩
    · obtain ⟨k, hk, hlead⟩ := ih n hn
      rcases List.mem_append.mp hk with hchild | hrest
      · exact ⟨key, List.mem_cons_self, .head ⟨m, hm, hchild⟩ hlead⟩
      · exact ⟨k, List.mem_cons_of_mem key hrest, hlead⟩

/-- A key is dealt with once it is seen, has no node or is listed. -/
def DealtWith (t : Tree) (seen : List NodeKey) (listed : List Node) (k : NodeKey) : Prop :=
  k ∈ seen ∨ t.latest? k = none ∨ k ∈ listed.map (·.key)

theorem DealtWith.listed {seen : List NodeKey} {listed : List Node} {n : Node} {k : NodeKey}
    (h : t.DealtWith (n.key :: seen) listed k) : t.DealtWith seen (n :: listed) k := by
  rcases h with hseen | hnone | hlisted
  · rcases List.mem_cons.mp hseen with rfl | hseen
    · exact .inr (.inr List.mem_cons_self)
    · exact .inl hseen
  · exact .inr (.inl hnone)
  · exact .inr (.inr (List.mem_cons_of_mem _ hlisted))

/-- Nothing on the stack and no child of a listed node is forgotten. -/
theorem reach_complete (seen stack : List NodeKey) :
    (∀ k ∈ stack, t.DealtWith seen (t.reach seen stack) k) ∧
      ∀ n ∈ t.reach seen stack, ∀ k ∈ n.children, t.DealtWith seen (t.reach seen stack) k := by
  induction seen, stack using Tree.reach.induct t with
  | case1 seen => simp [reach]
  | case2 seen key rest hseen ih =>
    rw [reach_seen hseen]
    exact ⟨List.forall_mem_cons.mpr ⟨.inl hseen, ih.1⟩, ih.2⟩
  | case3 seen key rest hseen hnone ih =>
    rw [reach_missing hseen hnone]
    have hdrop {k : NodeKey} (h : t.DealtWith (key :: seen) (t.reach (key :: seen) rest) k) :
        t.DealtWith seen (t.reach (key :: seen) rest) k := by
      rcases h with hk | hk | hk
      · rcases List.mem_cons.mp hk with rfl | hk
        · exact .inr (.inl hnone)
        · exact .inl hk
      · exact .inr (.inl hk)
      · exact .inr (.inr hk)
    exact ⟨List.forall_mem_cons.mpr ⟨.inr (.inl hnone), fun k hk => hdrop (ih.1 k hk)⟩,
      fun n hn k hk => hdrop (ih.2 n hn k hk)⟩
  | case4 seen key rest hseen m hm ih =>
    rw [reach_node hseen hm]
    obtain ⟨-, rfl⟩ := latest?_mem hm
    -- The children of the node are on the stack that the hypothesis is about.
    refine ⟨List.forall_mem_cons.mpr ⟨.inr (.inr List.mem_cons_self), fun k hk =>
      (ih.1 k (List.mem_append_right _ hk)).listed⟩, List.forall_mem_cons.mpr ⟨fun k hk =>
      (ih.1 k (List.mem_append_left _ hk)).listed, fun n hn k hk => (ih.2 n hn k hk).listed⟩⟩

/-! ### The whole listing -/

theorem latest?_of_mem_reachable {n : Node} (h : n ∈ t.reachable) : t.latest? n.key = some n :=
  (reach_fresh [] [t.root] n h).2

theorem reachable_nodup : (t.reachable.map (·.key)).Nodup := reach_nodup [] [t.root]

/-- Of the keys that are dealt with, those that have a node are listed. -/
theorem mem_of_dealtWith {k : NodeKey} {n : Node} (h : t.DealtWith [] t.reachable k)
    (hn : t.latest? k = some n) : n ∈ t.reachable := by
  rcases h with hnil | hnone | hmem
  · exact absurd hnil List.not_mem_nil
  · rw [hnone] at hn
    exact absurd hn (by simp)
  · obtain ⟨m, hm, rfl⟩ := List.mem_map.mp hmem
    have hsame := (latest?_of_mem_reachable hm).symm.trans hn
    exact Option.some.inj hsame ▸ hm

theorem dealtWith_of_leadsTo {k : NodeKey} (h : t.LeadsTo t.root k) : t.DealtWith [] t.reachable k := by
  obtain ⟨hstack, hchildren⟩ := reach_complete (t := t) [] [t.root]
  induction h with
  | refl => exact hstack t.root List.mem_cons_self
  | tail _ hchild ih =>
    obtain ⟨n, hn, hk⟩ := hchild
    exact hchildren n (mem_of_dealtWith ih hn) _ hk

/-- **The listing holds the nodes that child links lead to from the root.** -/
theorem mem_reachable {n : Node} :
    n ∈ t.reachable ↔ t.latest? n.key = some n ∧ t.LeadsTo t.root n.key := by
  constructor
  · intro h
    obtain ⟨k, hk, hlead⟩ := reach_sound [] [t.root] n h
    exact ⟨latest?_of_mem_reachable h, List.mem_singleton.mp hk ▸ hlead⟩
  · intro hright
    obtain ⟨hn, hlead⟩ := hright
    exact mem_of_dealtWith (dealtWith_of_leadsTo hlead) hn

end Lowering.Tree
