import Lowering.Proofs.Linearize.Walk

/-! Which nodes become instructions.

The instructions of a tree are those of the nodes that its settled form leads to, each
once: the root has one, the children of an instruction are those of its settled node, and
every instruction is below the root. A tree leads to more only through the root's earlier
content sequences, which settling drops. So nothing of the tree is lost exactly when
whatever these sequences hold is led to in another way (`nodes_kept_iff`). -/
namespace Lowering

/-! ### Dropped children -/

/-- The children in the content sequences before the last one. -/
def Node.dropped (n : Node) : List NodeKey := n.contentSequences.dropLast.flatten

/-- The children of the root that linearization does not visit as such. -/
def Tree.dropped (t : Tree) : List NodeKey := (t.get? t.root).toList.flatMap (·.dropped)

/-- They are the children of the properties that stand for the root's content, but the last. -/
theorem Node.dropped_eq (n : Node) :
    n.dropped = (n.properties.filter (Markup.isRootContent true)).dropLast.flatMap (·.value.children) := by
  rw [dropped, contentSequences_eq, ← List.map_dropLast, List.flatMap_def]

theorem Node.dropped_subset (n : Node) : n.dropped ⊆ n.children := by
  intro k hk
  rw [dropped_eq] at hk
  obtain ⟨p, hp, hk⟩ := List.mem_flatMap.mp hk
  have hmem := (List.mem_filter.mp (List.dropLast_subset _ hp)).1
  exact List.mem_append_left _ (List.mem_flatMap.mpr ⟨p, hmem, hk⟩)

/-- A root without content besides a content sequence keeps its children but the dropped ones. -/
theorem Node.mem_settled_or_dropped {n : Node}
    (honce : ∀ p ∈ n.properties, Markup.isRootContent true p = true → n.content = [])
    {k : NodeKey} (hk : k ∈ n.children) : k ∈ (n.settled true).children ∨ k ∈ n.dropped := by
  rw [dropped_eq, children, settled_properties, settled_content, Markup.contentOf]
  rcases List.mem_append.mp hk with hk | hk
  · obtain ⟨p, hp, hk⟩ := List.mem_flatMap.mp hk
    cases hcontent : Markup.isRootContent true p with
    | false =>
      have hkept : p ∈ n.properties.filter (!Markup.isRootContent true ·) :=
        List.mem_filter.mpr ⟨hp, by simp [hcontent]⟩
      exact .inl (List.mem_append_left _ (List.mem_flatMap.mpr ⟨p, hkept, hk⟩))
    | true =>
      have hmem : p ∈ n.properties.filter (Markup.isRootContent true) :=
        List.mem_filter.mpr ⟨hp, hcontent⟩
      have hne := List.ne_nil_of_mem hmem
      rw [← List.dropLast_append_getLast hne] at hmem
      rcases List.mem_append.mp hmem with hearlier | hlast
      · exact .inr (List.mem_flatMap.mpr ⟨p, hearlier, hk⟩)
      · obtain rfl := List.mem_singleton.mp hlast
        refine .inl (List.mem_append_right _ ?_)
        rw [List.getLast?_eq_getLast_of_ne_nil hne]
        exact hk
  · have hnone : n.properties.filter (Markup.isRootContent true) = [] :=
      List.filter_eq_nil_iff.mpr fun p hp hcontent =>
        List.ne_nil_of_mem hk (honce p hp hcontent)
    refine .inl (List.mem_append_right _ ?_)
    rw [hnone]
    exact hk

namespace Markup.Rendered

variable {m : Markup} {l : Linearized} (h : m.Rendered l)

include h

/-! ### Instructions and settled nodes -/

theorem root_node : l.root.node = m.tree.root := by
  obtain ⟨r, hr⟩ := h.root
  exact hr.made.node.trans (Tree.get?_mem hr.node).2

/-- An instruction is that of a settled node. The root has no identity, and the node of any
other instruction decides on that. -/
theorem node_of {j : Instruction} (hj : j ∈ l.root.flatten) :
    ∃ n, m.tree.get? j.node = some n ∧ j.MadeFor (n.settled (n.key = m.tree.root)) ∧
      (n.key = m.tree.root ∧ n.id = none ∧ j.identity = none ∨ n.key ≠ m.tree.root ∧ j.Named n) := by
  obtain ⟨r, hr⟩ := h.root
  have honce := h.once
  rw [Instruction.flatten_eq, List.map_cons, List.nodup_cons] at honce
  rw [Instruction.flatten_eq] at hj
  rcases List.mem_cons.mp hj with rfl | hj
  · obtain ⟨-, hkey⟩ := Tree.get?_mem hr.node
    refine ⟨r, by rw [h.root_node, hr.node], ?_, .inl ⟨hkey, hr.unnamed, hr.identity⟩⟩
    rw [decide_eq_true hkey]
    exact hr.made
  · obtain ⟨n, hn⟩ := h.below j hj
    have hkey : n.key ≠ m.tree.root := by
      intro hroot
      rw [h.root_node, ← hroot, ← hn.made.node] at honce
      exact honce.1 (List.mem_map_of_mem hj)
    refine ⟨n, hn.node, ?_, .inr ⟨hkey, hn.named⟩⟩
    rw [decide_eq_false hkey, Node.settled_false]
    exact hn.made

/-- An instruction is that of a settled node, and its field is exposed where the source
names the node. -/
theorem settled_node {j : Instruction} (hj : j ∈ l.root.flatten) :
    ∃ n, m.tree.settled.latest? j.node = some n ∧ j.MadeFor n ∧
      j.field?.any (·.exposed) = n.id.isSome := by
  obtain ⟨n, hn, hmade, hidentity⟩ := h.node_of hj
  refine ⟨n.settled (n.key = m.tree.root), ?_, hmade, ?_⟩
  · rw [Tree.latest?_eq_get? h.distinct.settled, Tree.get?_settled, hn, Option.map_some]
  · rcases hidentity with ⟨-, hid, hidentity⟩ | ⟨-, hnamed⟩
    · rw [Instruction.field?, hidentity, Node.settled, hid]
      rfl
    · obtain ⟨d, hd, hexposed⟩ := hnamed.identity
      rw [Instruction.field?, hd]
      exact hexposed

/-- Every instruction is below the root. -/
theorem leadsTo_node {j : Instruction} (hj : j ∈ l.root.flatten) :
    m.tree.settled.LeadsTo m.tree.root j.node := by
  -- Going down, an instruction of the tree that is led to leads to what is nested in it.
  have hdown : ∀ i ∈ l.root.flatten, m.tree.settled.LeadsTo m.tree.root i.node →
      ∀ j ∈ i.flatten, m.tree.settled.LeadsTo m.tree.root j.node := by
    intro i
    induction i using Instruction.nesting with
    | step i ih =>
      intro hi hlead j hj
      rw [Instruction.flatten_eq] at hj
      rcases List.mem_cons.mp hj with rfl | hj
      · exact hlead
      · obtain ⟨c, hc, hj⟩ := List.mem_flatMap.mp hj
        obtain ⟨n, hn, hmade, hexposed⟩ := h.settled_node hi
        have hchild : c.node ∈ n.children := hmade.children ▸ List.mem_map_of_mem hc
        exact ih c hc (Instruction.flatten_trans hi (Instruction.mem_flatten_of_child hc
          c.self_mem_flatten)) (hlead.tail ⟨n, hn, hchild⟩) j hj
  exact hdown l.root l.root.self_mem_flatten (h.root_node ▸ .refl) j hj

/-- What the settled tree leads to has an instruction. -/
theorem node_mem {k : NodeKey} (hk : m.tree.settled.LeadsTo m.tree.root k) :
    k ∈ l.root.flatten.map (·.node) := by
  induction hk with
  | refl => exact List.mem_map.mpr ⟨l.root, l.root.self_mem_flatten, h.root_node⟩
  | tail _ hchild ih =>
    obtain ⟨i, hi, rfl⟩ := List.mem_map.mp ih
    obtain ⟨n, hn, hmade, hexposed⟩ := h.settled_node hi
    obtain ⟨n', hn', hk⟩ := hchild
    obtain rfl := Option.some.inj (hn.symm.trans hn')
    rw [← hmade.children] at hk
    obtain ⟨c, hc, rfl⟩ := List.mem_map.mp hk
    exact List.mem_map_of_mem
      (Instruction.flatten_trans hi (Instruction.mem_flatten_of_child hc c.self_mem_flatten))

/-- The instruction of a node is listed. -/
theorem node_of_instruction {j : Instruction} (hj : j ∈ l.root.flatten) :
    ∃ n ∈ m.tree.settled.reachable, j.MadeFor n ∧ j.field?.any (·.exposed) = n.id.isSome := by
  obtain ⟨n, hn, hmade, hexposed⟩ := h.settled_node hj
  refine ⟨n, Tree.mem_reachable.mpr ⟨?_, ?_⟩, hmade, hexposed⟩
  · rw [← hmade.node, hn]
  · exact hmade.node ▸ h.leadsTo_node hj

theorem instruction_of_node {n : Node} (hn : n ∈ m.tree.settled.reachable) :
    ∃ j ∈ l.root.flatten, j.MadeFor n ∧ j.field?.any (·.exposed) = n.id.isSome := by
  obtain ⟨hlatest, hlead⟩ := Tree.mem_reachable.mp hn
  obtain ⟨j, hj, hkey⟩ := List.mem_map.mp (h.node_mem hlead)
  obtain ⟨n', hn', hmade, hexposed⟩ := h.settled_node hj
  obtain rfl : n' = n := Option.some.inj (hn'.symm.trans ((congrArg _ hkey).trans hlatest))
  exact ⟨j, hj, hmade, hexposed⟩

/-- The instructions are those of the settled tree's listing. -/
theorem flatten_perm_settled :
    (l.root.flatten.map (·.node)).Perm (m.tree.settled.reachable.map (·.key)) := by
  refine (List.perm_ext_iff_of_nodup h.once Tree.reachable_nodup).mpr fun k => ?_
  constructor
  · intro hk
    obtain ⟨j, hj, rfl⟩ := List.mem_map.mp hk
    obtain ⟨n, hn, hmade, hexposed⟩ := h.node_of_instruction hj
    exact List.mem_map.mpr ⟨n, hn, hmade.node.symm⟩
  · intro hk
    obtain ⟨n, hn, rfl⟩ := List.mem_map.mp hk
    exact h.node_mem (Tree.mem_reachable.mp hn).2

/-! ### What is lost -/

theorem child_of_dropped {k : NodeKey} (hk : k ∈ m.tree.dropped) : m.tree.Child m.tree.root k := by
  obtain ⟨r, hr, hk⟩ := List.mem_flatMap.mp hk
  have hroot : m.tree.get? m.tree.root = some r := Option.mem_toList.mp hr
  exact ⟨r, (Tree.latest?_eq_get? h.distinct _).trans hroot, r.dropped_subset hk⟩

/-- A child link of the tree is one of the settled tree unless it is dropped. -/
theorem child_settled_or_dropped {a b : NodeKey} (hab : m.tree.Child a b) :
    m.tree.settled.Child a b ∨ b ∈ m.tree.dropped := by
  obtain ⟨n, hn, hb⟩ := hab
  obtain ⟨-, rfl⟩ := Tree.latest?_mem hn
  by_cases hkey : n.key = m.tree.root
  · obtain ⟨r, hr⟩ := h.root
    obtain rfl : n = r := by
      rw [hkey, Tree.latest?_eq_get? h.distinct, hr.node] at hn
      exact (Option.some.inj hn).symm
    rcases Node.mem_settled_or_dropped hr.content hb with hb | hb
    · refine .inl ⟨n.settled true, ?_, hb⟩
      rw [Tree.latest?_settled, hn, Option.map_some, decide_eq_true hkey]
    · exact .inr (List.mem_flatMap.mpr ⟨n, Option.mem_toList.mpr hr.node, hb⟩)
  · refine .inl ⟨n, ?_, hb⟩
    rw [Tree.latest?_settled, hn, Option.map_some, decide_eq_false hkey, Node.settled_false]

/-- Where dropped nodes are led to in another way, so is everything else. -/
theorem leadsTo_settled
    (hdropped : ∀ k ∈ m.tree.dropped, (m.tree.get? k).isSome →
      m.tree.settled.LeadsTo m.tree.root k)
    {k : NodeKey} (hk : m.tree.LeadsTo m.tree.root k) (hnode : (m.tree.get? k).isSome) :
    m.tree.settled.LeadsTo m.tree.root k := by
  induction hk with
  | refl => exact .refl
  | tail _ hchild ih =>
    rcases h.child_settled_or_dropped hchild with hsettled | hdrop
    · obtain ⟨n, hn, -⟩ := hchild
      rw [Tree.latest?_eq_get? h.distinct] at hn
      exact (ih (by rw [hn]; rfl)).tail hsettled
    · exact hdropped _ hdrop hnode

/-- Where nothing is lost by dropping, every node that the tree lists is listed settled. -/
theorem mem_reachable_settled
    (hdropped : ∀ k ∈ m.tree.dropped, (m.tree.get? k).isSome →
      m.tree.settled.LeadsTo m.tree.root k)
    {n : Node} (hn : n ∈ m.tree.reachable) :
    n.settled (n.key = m.tree.root) ∈ m.tree.settled.reachable := by
  obtain ⟨hlatest, hlead⟩ := Tree.mem_reachable.mp hn
  have hget : (m.tree.get? n.key).isSome := by
    rw [← Tree.latest?_eq_get? h.distinct, hlatest]
    rfl
  refine Tree.mem_reachable.mpr ⟨?_, h.leadsTo_settled hdropped hlead hget⟩
  show m.tree.settled.latest? n.key = _
  rw [Tree.latest?_settled, hlatest]
  rfl

/-- Then every node of the tree has an instruction. -/
theorem flatten_perm_reachable
    (hdropped : ∀ k ∈ m.tree.dropped, (m.tree.get? k).isSome →
      m.tree.settled.LeadsTo m.tree.root k) :
    (l.root.flatten.map (·.node)).Perm (m.tree.reachable.map (·.key)) := by
  refine (List.perm_ext_iff_of_nodup h.once Tree.reachable_nodup).mpr fun k => ⟨fun hk => ?_, ?_⟩
  · exact Tree.reachable_settled_subset (h.flatten_perm_settled.mem_iff.mp hk)
  · intro hk
    obtain ⟨n, hn, rfl⟩ := List.mem_map.mp hk
    have hsettled := h.mem_reachable_settled hdropped hn
    exact h.flatten_perm_settled.mem_iff.mpr (List.mem_map.mpr ⟨_, hsettled, rfl⟩)

/-- A dropped node that has an instruction is led to in another way. -/
theorem leadsTo_of_perm
    (hperm : (l.root.flatten.map (·.node)).Perm (m.tree.reachable.map (·.key)))
    {k : NodeKey} (hk : k ∈ m.tree.dropped) (hnode : (m.tree.get? k).isSome) :
    m.tree.settled.LeadsTo m.tree.root k := by
  obtain ⟨n, hn⟩ := Option.isSome_iff_exists.mp hnode
  obtain ⟨-, rfl⟩ := Tree.get?_mem hn
  have hmem : n ∈ m.tree.reachable :=
    Tree.mem_reachable.mpr ⟨(Tree.latest?_eq_get? h.distinct _).trans hn,
      .single (h.child_of_dropped hk)⟩
  obtain ⟨j, hj, hkey⟩ := List.mem_map.mp (hperm.mem_iff.mpr (List.mem_map_of_mem hmem))
  exact hkey ▸ h.leadsTo_node hj

end Markup.Rendered

/-- **No node gets two instructions, and every node that the tree leads to gets one exactly
when those that the root drops are led to in another way.** -/
theorem nodes_kept_iff (m : Markup) (l : Linearized) (h : m.linearize = .ok l) :
    (l.root.flatten.map (·.node)).Nodup ∧
      ((l.root.flatten.map (·.node)).Perm (m.tree.reachable.map (·.key)) ↔
        ∀ k ∈ m.tree.dropped, (m.tree.get? k).isSome → m.tree.settled.LeadsTo m.tree.root k) := by
  have hl := Markup.linearize_renders h
  refine ⟨hl.once, fun hperm k hk hnode => ?_, fun hdropped => ?_⟩
  · exact hl.leadsTo_of_perm hperm hk hnode
  · exact hl.flatten_perm_reachable hdropped

/-- A view whose content is a box and a button, with a label in the box. -/
def boxedView : Markup where
  owner := ⟨"app.Main"⟩
  tree := {
    root := ⟨0⟩
    nodes := [
      { key := ⟨0⟩, target := ⟨"ui.View"⟩
        properties := [⟨contentProperty, .nodes [⟨1⟩, ⟨2⟩]⟩, ⟨"title", .literal (.string "Main")⟩] },
      { key := ⟨1⟩, target := ⟨"ui.Box"⟩, content := [⟨3⟩] },
      { key := ⟨2⟩, target := ⟨"ui.Button"⟩, id := some "ok" },
      { key := ⟨3⟩, target := ⟨"ui.Label"⟩ }] }

/-- The instructions of the view are in pre-order, and none is missing. -/
theorem boxedView_nodes_kept :
    ∃ l, boxedView.linearize = .ok l ∧
      l.root.flatten.map (·.node) = [⟨0⟩, ⟨1⟩, ⟨3⟩, ⟨2⟩] ∧
      (l.root.flatten.map (·.node)).Perm (boxedView.tree.reachable.map (·.key)) := by
  have hdropped : boxedView.tree.dropped = [] := rfl
  refine ⟨_, rfl, rfl, (nodes_kept_iff boxedView _ rfl).2.mpr fun k hk => ?_⟩
  rw [hdropped] at hk
  exact absurd hk List.not_mem_nil

/-- A view whose content is assigned twice, first a label and then a button. -/
def refilledView : Markup where
  owner := ⟨"app.Main"⟩
  tree := {
    root := ⟨0⟩
    nodes := [
      { key := ⟨0⟩, target := ⟨"ui.View"⟩
        properties := [⟨contentProperty, .nodes [⟨1⟩]⟩, ⟨contentProperty, .nodes [⟨2⟩]⟩] },
      { key := ⟨1⟩, target := ⟨"ui.Label"⟩ },
      { key := ⟨2⟩, target := ⟨"ui.Button"⟩ }] }

/-- The label gets no instruction. -/
theorem refilledView_label_lost :
    ∃ l, refilledView.linearize = .ok l ∧
      l.root.flatten.map (·.node) = [⟨0⟩, ⟨2⟩] ∧
      refilledView.tree.reachable.map (·.key) = [⟨0⟩, ⟨1⟩, ⟨2⟩] ∧
      ¬(l.root.flatten.map (·.node)).Perm (refilledView.tree.reachable.map (·.key)) := by
  have hreachable : refilledView.tree.reachable.map (·.key) = [⟨0⟩, ⟨1⟩, ⟨2⟩] := by
    cbv
  refine ⟨_, rfl, rfl, hreachable, fun hperm => ?_⟩
  rw [hreachable] at hperm
  exact absurd hperm.length_eq (by decide)

end Lowering
