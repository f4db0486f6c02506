import Lowering.Proofs.Linearize.Fitting
import Lowering.Proofs.Source.Unfolding
import Mathlib.Data.List.Chain
import Mathlib.Data.List.Flatten
import Mathlib.Data.List.NodupEquivFin

/-! Where a walk over a tree stands.

A walk is inside of the nodes of a path, which lead from the root to the one that was entered last
(`Entered`). The nodes that it has finished lead to finished nodes alone and none of them comes back
to itself; each of them has been referred to, either by a finished node or by one of the path
(`Standing`). Entering and finishing a node keep it so. What the walk complains about at a child is
therefore true (`Justified`): a child on the path closes a cycle of links, and a finished one has
been referred to from another position before. -/
namespace Lowering

open Relation

namespace Tree

/-- The tree has the node, and child links lead to it from the root. -/
structure Reached (t : Tree) (n : Node) : Prop where
  held : t.get? n.key = some n
  led : t.LeadsTo t.root n.key

/-- The key is a child at two positions, of one node that is reached or of two. -/
def ChildTwice (t : Tree) (key : NodeKey) : Prop :=
  ∃ (n n' : Node) (i i' : Nat), (n.key, i) ≠ (n'.key, i') ∧ t.Reached n ∧ n.children[i]? = some key ∧
    t.Reached n' ∧ n'.children[i']? = some key

/-- Child links from the root down, through nodes none of which is met twice. -/
structure Way (t : Tree) (way : List NodeKey) : Prop where
  root : way.head? = some t.root
  linked : way.IsChain t.Child
  distinct : way.Nodup
  nodes : ∀ k ∈ way, (t.get? k).isSome

variable {t : Tree} {way : List NodeKey} {a b : NodeKey}

theorem Way.step (h : t.Way (way ++ [a])) (hab : t.Child a b) (hb : (t.get? b).isSome)
    (hfresh : b ∉ way ++ [a]) : t.Way (way ++ [a] ++ [b]) where
  root := by
    rw [List.head?_append_of_ne_nil _ (by simp)]
    exact h.root
  linked := by
    refine List.isChain_append.mpr ⟨h.linked, .singleton b, ?_⟩
    simpa using hab
  distinct := by
    rw [List.nodup_append_comm]
    exact List.nodup_cons.mpr ⟨hfresh, h.distinct⟩
  nodes := by
    intro k hk
    obtain hk | hk := List.mem_append.mp hk
    · exact h.nodes k hk
    · exact List.mem_singleton.mp hk ▸ hb

theorem not_mem_keys (h : t.get? a = none) : a ∉ t.nodes.map (·.key) := by
  intro hmem
  obtain ⟨n, hn, hkey⟩ := List.mem_map.mp hmem
  exact List.find?_eq_none.mp h n hn (by simpa using hkey)

theorem child_iff (ht : t.Distinct) {n : Node} (hn : t.get? n.key = some n) :
    t.Child n.key b ↔ b ∈ n.children := by
  rw [Child, latest?_eq_get? ht, hn]
  simp

theorem exists_of_child (ht : t.Distinct) (h : t.Child a b) :
    ∃ n, n.key = a ∧ t.get? n.key = some n ∧ b ∈ n.children := by
  obtain ⟨n, hn, hb⟩ := h
  obtain ⟨-, hkey⟩ := latest?_mem hn
  rw [latest?_eq_get? ht, ← hkey] at hn
  exact ⟨n, hkey, hn, hb⟩

end Tree

namespace Markup

/-- The failure says what is so of the tree, or of the events that are bound to it. -/
def Justified (m : Markup) : Error → Prop
  | .cyclicTree _ key _ _ => m.tree.LeadsTo m.tree.root key ∧ TransGen m.tree.Child key key
  | .sharedNode _ key _ _ => m.tree.ChildTwice key ∧ ¬TransGen m.tree.Child key key
  | .danglingNode _ key _ =>
    key ∉ m.tree.nodes.map (·.key) ∧ (key = m.tree.root ∨ ∃ n, m.tree.Reached n ∧ key ∈ n.children)
  | .malformedTree _ (.nestedTooDeep levels) _ =>
    levels = nestingLevels ∧ ∃ way, m.tree.Way way ∧ levels + 1 < way.length
  | .malformedTree _ .rootWithId _ => ∃ n, m.tree.get? m.tree.root = some n ∧ n.id.isSome
  | .malformedTree _ (.reservedProperty name) _ =>
    ∃ n, m.tree.Reached n ∧ ∃ property ∈ n.properties, property.name = name ∧ property.Reserved
  | .malformedTree _ (.contentTwice name) _ =>
    name = contentProperty ∧ ∃ n, m.tree.get? m.tree.root = some n ∧ n.content ≠ [] ∧
      ∃ property ∈ n.properties, property.name = name
  | .duplicateIdentity _ id _ =>
    Synthetic id ∨ ∃ n n', n.key ≠ n'.key ∧ m.tree.Reached n ∧ n.id = some id ∧
      m.tree.Reached n' ∧ n'.id = some id
  | .unknownEventTarget _ event key _ =>
    (∃ e ∈ m.events, e.event = event ∧ e.node = key) ∧
      (m.tree.get? key = none ∨ ¬m.tree.settled.Unfolds key)
  | _ => False

variable (m : Markup)

/-- A walk has entered a node inside of the nodes `above`, which have referred to the keys `outer`
by then. -/
structure Entered (n : Node) (above outer : List NodeKey) : Prop where
  held : m.tree.get? n.key = some n
  way : m.tree.Way (above.reverse ++ [n.key])
  reached : ∀ k ∈ n.key :: above, m.tree.LeadsTo m.tree.root k
  leads : ∀ k ∈ n.key :: above, m.tree.LeadsTo k n.key
  referred : ∀ k ∈ outer, ∃ a ∈ above, m.tree.Child a k

/-- A walk is inside of the nodes of a path, which have referred to the keys `references`. -/
structure Standing (path references : List NodeKey) (p : Progress) : Prop where
  open_ : ∀ k ∈ path, k ∉ p.finished
  reached : ∀ k ∈ p.finished, m.tree.LeadsTo m.tree.root k
  closed : ∀ k ∈ p.finished, ∀ b, m.tree.Child k b → b ∈ p.finished
  acyclic : ∀ k ∈ p.finished, ¬TransGen m.tree.Child k k
  done : ∀ k ∈ references, k ∈ p.finished
  referred : ∀ k ∈ p.finished, k ∈ references ∨ ∃ a ∈ p.finished, m.tree.Child a k
  ids : ∀ id ∈ p.ids, ∃ n, m.tree.get? n.key = some n ∧ n.id = some id ∧
    (n.key ∈ path ∨ n.key ∈ p.finished)

variable {m} {n n' : Node} {above outer before references : List NodeKey} {key : NodeKey} {p q : Progress}
  {isRoot : Bool}

/-! ### Entering and finishing -/

theorem Entered.distinct (h : m.Entered n above outer) : n.key ∉ above := by
  have hnodup := List.nodup_append_comm.mp h.way.distinct
  exact fun hmem => (List.nodup_cons.mp hnodup).1 (List.mem_reverse.mpr hmem)

theorem Entered.here (h : m.Entered n above outer) : m.tree.Reached n :=
  ⟨h.held, h.reached n.key List.mem_cons_self⟩

theorem Entered.root (hn : m.tree.get? m.tree.root = some n) : m.Entered n [] [] := by
  obtain ⟨-, hkey⟩ := Tree.get?_mem hn
  rw [← hkey] at hn
  refine ⟨hn, ⟨congrArg some hkey, .singleton _, List.nodup_singleton _, ?_⟩, ?_, ?_, nofun⟩
  · intro k hk
    rw [List.mem_singleton.mp hk, hn]
    rfl
  · intro k hk
    rw [List.mem_singleton.mp hk, hkey]
  · intro k hk
    rw [List.mem_singleton.mp hk]

/-- The walk goes on to a child that it is not inside of. -/
theorem Entered.child (h : m.Entered n above outer) (hn' : m.tree.get? n'.key = some n')
    (hlink : m.tree.Child n.key n'.key) (hfresh : n'.key ∉ n.key :: above)
    (hbefore : ∀ k ∈ before, m.tree.Child n.key k) : m.Entered n' (n.key :: above) (outer ++ before) where
  held := hn'
  way := by
    rw [List.reverse_cons]
    refine h.way.step hlink (by rw [hn']; rfl) ?_
    rw [← List.reverse_cons, List.mem_reverse]
    exact hfresh
  reached := List.forall_mem_cons.mpr ⟨(h.reached n.key List.mem_cons_self).tail hlink, h.reached⟩
  leads := List.forall_mem_cons.mpr ⟨.refl, fun k hk => (h.leads k hk).tail hlink⟩
  referred := by
    intro k hk
    obtain hk | hk := List.mem_append.mp hk
    · obtain ⟨a, ha, hlink⟩ := h.referred k hk
      exact ⟨a, List.mem_cons_of_mem n.key ha, hlink⟩
    · exact ⟨n.key, List.mem_cons_self, hbefore k hk⟩

theorem Standing.start : m.Standing [] [] {} := by
  constructor <;> intro k hk <;> cases hk

/-- Entering a node takes no more than its identity. -/
theorem Standing.enter (h : m.Standing above references p) (hn : m.tree.get? n.key = some n)
    (hfresh : n.key ∉ p.finished) (hfinished : q.finished = p.finished)
    (hids : ∀ id ∈ q.ids, n.id = some id ∨ id ∈ p.ids) : m.Standing (n.key :: above) references q where
  open_ := List.forall_mem_cons.mpr ⟨hfinished ▸ hfresh, hfinished ▸ h.open_⟩
  reached := hfinished ▸ h.reached
  closed := hfinished ▸ h.closed
  acyclic := hfinished ▸ h.acyclic
  done := hfinished ▸ h.done
  referred := hfinished ▸ h.referred
  ids := by
    intro id hid
    obtain hid | hid := hids id hid
    · exact ⟨n, hn, hid, .inl List.mem_cons_self⟩
    · obtain ⟨n', hn', hid', hmem⟩ := h.ids id hid
      exact ⟨n', hn', hid', hmem.imp (List.mem_cons_of_mem n.key) fun hmem => hfinished ▸ hmem⟩

/-- What finished nodes lead to is finished. -/
theorem Standing.closed_of_leadsTo (h : m.Standing above references p) {a b : NodeKey} (ha : a ∈ p.finished)
    (hab : m.tree.LeadsTo a b) : b ∈ p.finished := by
  induction hab with
  | refl => exact ha
  | tail _ hlink ih => exact h.closed _ ih _ hlink

/-- When all its children are finished, a node leads to what is finished already. -/
theorem Standing.finished_of_child (ht : m.tree.Distinct) (hn : m.Entered n above outer)
    (h : m.Standing (n.key :: above) (outer ++ n.children) p) {b : NodeKey} (hb : m.tree.Child n.key b) :
    b ∈ p.finished :=
  h.done b (List.mem_append_right _ ((Tree.child_iff ht hn.held).mp hb))

/-- A node is finished when all its children are. -/
theorem Standing.finish (ht : m.tree.Distinct) (hn : m.Entered n above outer)
    (h : m.Standing (n.key :: above) (outer ++ n.children) p) :
    m.Standing above (outer ++ [n.key]) { p with finished := n.key :: p.finished } where
  open_ := by
    intro k hk hmem
    obtain rfl | hmem := List.mem_cons.mp hmem
    · exact hn.distinct hk
    · exact h.open_ k (List.mem_cons_of_mem _ hk) hmem
  reached := List.forall_mem_cons.mpr ⟨hn.reached n.key List.mem_cons_self, h.reached⟩
  closed := by
    refine List.forall_mem_cons.mpr ⟨fun b hb => ?_, fun k hk b hb => ?_⟩
    · exact List.mem_cons_of_mem _ (h.finished_of_child ht hn hb)
    · exact List.mem_cons_of_mem _ (h.closed k hk b hb)
  acyclic := by
    refine List.forall_mem_cons.mpr ⟨fun hcycle => ?_, h.acyclic⟩
    -- what the node leads to is finished already, and the node is not
    obtain ⟨b, hb, hback⟩ := TransGen.head'_iff.mp hcycle
    exact h.open_ n.key List.mem_cons_self (h.closed_of_leadsTo (h.finished_of_child ht hn hb) hback)
  done := by
    intro k hk
    obtain hk | hk := List.mem_append.mp hk
    · exact List.mem_cons_of_mem _ (h.done k (List.mem_append_left _ hk))
    · exact List.mem_singleton.mp hk ▸ List.mem_cons_self
  referred := by
    refine List.forall_mem_cons.mpr ⟨.inl (List.mem_append_right _ List.mem_cons_self), fun k hk => ?_⟩
    obtain hrefers | ⟨a, ha, hlink⟩ := h.referred k hk
    · obtain houter | hchild := List.mem_append.mp hrefers
      · exact .inl (List.mem_append_left _ houter)
      · exact .inr ⟨n.key, List.mem_cons_self, (Tree.child_iff ht hn.held).mpr hchild⟩
    · exact .inr ⟨a, List.mem_cons_of_mem _ ha, hlink⟩
  ids := by
    intro id hid
    obtain ⟨n', hn', hid', hmem⟩ := h.ids id hid
    refine ⟨n', hn', hid', ?_⟩
    obtain hpath | hfinished := hmem
    · obtain heq | habove := List.mem_cons.mp hpath
      · exact .inr (heq ▸ List.mem_cons_self)
      · exact .inl habove
    · exact .inr (List.mem_cons_of_mem _ hfinished)

/-! ### Complaints -/

/-- Settling leaves no child in more places than the node has it. -/
theorem count_settled_children (isRoot : Bool) (n : Node) (key : NodeKey) :
    (n.settled isRoot).children.count key ≤ n.children.count key := by
  have hparted : (n.properties.flatMap (·.value.children)).Perm
      ((n.properties.filter (isRootContent isRoot)).flatMap (·.value.children) ++
        (n.properties.filter (!isRootContent isRoot ·)).flatMap (·.value.children)) := by
    rw [← List.flatMap_append]
    exact (List.filter_append_perm _ _).symm.flatMap_right _
  have hcontent : (contentOf isRoot n).count key ≤
      ((n.properties.filter (isRootContent isRoot)).flatMap (·.value.children)).count key +
        n.content.count key := by
    rw [contentOf]
    split
    next p hlast =>
      have hsublist := (List.singleton_sublist.mpr (List.mem_of_getLast? hlast)).flatMap (·.value.children)
      rw [List.flatMap_singleton] at hsublist
      exact Nat.le_add_right_of_le (hsublist.count_le key)
    next => exact Nat.le_add_left _ _
  rw [Node.children, Node.children, Node.settled_properties, Node.settled_content, List.count_append,
    List.count_append, hparted.count_eq, List.count_append]
  omega

/-- A child that has no node. -/
theorem justified_dangling (hn : m.Entered n above outer) (hkey : key ∈ n.children)
    (hnone : m.tree.get? key = none) {owner : Name} {location : Option Location} :
    m.Justified (.danglingNode owner key location) :=
  ⟨Tree.not_mem_keys hnone, .inr ⟨n, hn.here, hkey⟩⟩

/-- A child that the walk is inside of. -/
theorem justified_cyclic (hn : m.Entered n above outer) (hlink : m.tree.Child n.key key)
    (hmem : key ∈ n.key :: above) {owner target : Name} {location : Option Location} :
    m.Justified (.cyclicTree owner key target location) :=
  ⟨hn.reached key hmem, TransGen.tail' (hn.leads key hmem) hlink⟩

/-- A child of two nodes. -/
theorem childTwice_of_parents (hn : m.tree.Reached n) (hn' : m.tree.Reached n') (hne : n.key ≠ n'.key)
    (hkey : key ∈ n.children) (hkey' : key ∈ n'.children) : m.tree.ChildTwice key := by
  obtain ⟨i, hi⟩ := List.getElem?_of_mem hkey
  obtain ⟨j, hj⟩ := List.getElem?_of_mem hkey'
  exact ⟨n, n', i, j, fun heq => hne (congrArg Prod.fst heq), hn, hi, hn', hj⟩

/-- A key that stands twice among the children of one node. -/
theorem childTwice_of_count (hn : m.tree.Reached n) (h : 2 ≤ n.children.count key) :
    m.tree.ChildTwice key := by
  obtain ⟨i, j, hij, hi, hj⟩ :=
    List.duplicate_iff_exists_distinct_get.mp (List.duplicate_iff_two_le_count.mpr h)
  have hne : (n.key, (i : Nat)) ≠ (n.key, (j : Nat)) := fun heq =>
    Fin.val_ne_of_ne hij.ne (congrArg Prod.snd heq)
  exact ⟨n, n, i, j, hne, hn, List.getElem?_eq_some_iff.mpr ⟨i.isLt, hi.symm⟩, hn,
    List.getElem?_eq_some_iff.mpr ⟨j.isLt, hj.symm⟩⟩

/-- A child that the walk has finished. -/
theorem justified_shared (ht : m.tree.Distinct) (hn : m.Entered n above outer)
    (h : m.Standing (n.key :: above) (outer ++ before) p)
    (hfront : before ++ [key] <+: (n.settled isRoot).children) (hfinished : key ∈ p.finished)
    {owner target : Name} {location : Option Location} :
    m.Justified (.sharedNode owner key target location) := by
  have hkey : key ∈ n.children := Node.settled_children_subset
    (hfront.subset (List.mem_append_right _ List.mem_cons_self))
  refine ⟨?_, h.acyclic key hfinished⟩
  -- a node other than this one, which has referred to the child
  have hother {a : NodeKey} (ha : m.tree.LeadsTo m.tree.root a) (hne : a ≠ n.key)
      (hlink : m.tree.Child a key) : m.tree.ChildTwice key := by
    obtain ⟨n', rfl, hn', hkey'⟩ := Tree.exists_of_child ht hlink
    exact childTwice_of_parents ⟨hn', ha⟩ hn.here hne hkey' hkey
  obtain hrefers | ⟨a, ha, hlink⟩ := h.referred key hfinished
  · obtain houter | hbefore := List.mem_append.mp hrefers
    · obtain ⟨a, ha, hlink⟩ := hn.referred key houter
      exact hother (hn.reached a (List.mem_cons_of_mem _ ha)) (ne_of_mem_of_not_mem ha hn.distinct) hlink
    · have htwice : 2 ≤ (before ++ [key]).count key := by
        rw [List.count_append, List.count_singleton_self]
        exact Nat.succ_le_succ (List.count_pos_iff.mpr hbefore)
      have hcount := (htwice.trans (hfront.sublist.count_le key)).trans (count_settled_children isRoot n key)
      exact childTwice_of_count hn.here hcount
  · have hne : a ≠ n.key := fun heq => h.open_ n.key List.mem_cons_self (heq ▸ ha)
    exact hother (h.reached a ha) hne hlink

/-- A node that no level is left for. -/
theorem justified_nestedTooDeep (hn : m.Entered n above outer) (hlevels : above.length = nestingLevels + 1) :
    m.Justified (m.malformed (.nestedTooDeep nestingLevels) n) := by
  refine ⟨rfl, _, hn.way, ?_⟩
  rw [List.length_append, List.length_reverse, hlevels]
  exact Nat.lt_succ_self _

/-- An identity that looks synthesized or is taken. -/
theorem justified_duplicate (hn : m.Entered n above outer) (h : m.Standing above outer p)
    (hfresh : n.key ∉ p.finished) {id : String} (hid : n.id = some id)
    (htaken : isBindingName id || isHandlerName id || id ∈ p.ids) {owner : Name} {location : Option Location} :
    m.Justified (.duplicateIdentity owner id location) := by
  obtain hsynthetic | hmem := Bool.or_eq_true_iff.mp htaken
  · exact .inl (synthetic_iff.mp hsynthetic)
  obtain ⟨n', hn', hid', hwalked⟩ := h.ids id (of_decide_eq_true hmem)
  have hreached : m.tree.LeadsTo m.tree.root n'.key := by
    obtain habove | hfinished := hwalked
    · exact hn.reached n'.key (List.mem_cons_of_mem _ habove)
    · exact h.reached n'.key hfinished
  have hne : n.key ≠ n'.key := by
    intro heq
    obtain habove | hfinished := hwalked
    · exact hn.distinct (heq ▸ habove)
    · exact hfresh (heq ▸ hfinished)
  exact .inr ⟨n, n', hne, hn.here, hid, ⟨hn', hreached⟩, hid'⟩

end Markup
end Lowering
