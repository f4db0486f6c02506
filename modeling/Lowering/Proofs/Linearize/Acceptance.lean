import Lowering.Proofs.Linearize.Descent

/-! Which trees linearize.

A tree is well-formed if its root has no identity and content in one place alone, if what
the root unfolds to is there, is met once and ends within the levels, if none of these nodes
has a property for identities and each identity of theirs is told apart from the others and
from synthesized ones, and if the events are at nodes among them. Linearization checks all of
this on its way and nothing else (`linearize_ok_iff_wellFormed`). -/
namespace Lowering
namespace Markup

/-- A node that the unfolding of the settled tree meets. -/
@[mk_iff]
structure Unfolded (m : Markup) (n : Node) : Prop where
  met : m.tree.settled.Unfolds n.key
  node : m.tree.get? n.key = some n

/-- The instructions of the tree can be made, and its events are at nodes that have one. In the
settled tree the root's last content sequence stands where content does. -/
structure WellFormed (m : Markup) : Prop where
  distinct : m.tree.Distinct
  root : ∃ r, m.tree.get? m.tree.root = some r ∧ r.id = none ∧
    (r.content = [] ∨ ∀ p ∈ r.properties, p.name ≠ contentProperty)
  /-- No key without a node is met. -/
  present : ∀ key, m.tree.settled.Unfolds key → ∃ n, m.tree.get? key = some n
  /-- No key is met twice, however far the unfolding goes. -/
  once : ∀ levels, (m.tree.settled.unfold levels m.tree.root).Nodup
  /-- No node is too far below the root. -/
  shallow : ∀ depth, nestingLevels < depth → m.tree.settled.level depth m.tree.root = []
  unreserved : ∀ n, m.Unfolded n → ∀ p ∈ n.properties, ¬p.Reserved
  /-- No two nodes have one identity. -/
  identities : ∀ n n' id, m.Unfolded n → m.Unfolded n' → n.id = some id → n'.id = some id →
    n.key = n'.key
  unsynthetic : ∀ n id, m.Unfolded n → n.id = some id → ¬Synthetic id
  events : ∀ e ∈ m.events, m.tree.settled.Unfolds e.node

variable {m : Markup}

/-! ### The whole tree -/

/-- A tree linearizes where the checks and the visit of its root succeed and the nodes of the
events are then finished. -/
theorem linearize_succeeds :
    (∃ l, m.linearize = .ok l) ↔
      ∃ r i q, m.checked = .ok r ∧ Gives (m.visit (m.descend nestingLevels) true [] r) {} i q ∧
        ∀ e ∈ m.events, e.node ∈ q.finished := by
  have htargets (q : Progress) : (m.events.find? fun e => e.node ∉ q.finished) = none ↔
      ∀ e ∈ m.events, e.node ∈ q.finished := by
    simp [List.find?_eq_none]
  simp only [linearize, bind_eq_ok]
  constructor
  · intro hright
    obtain ⟨l, r, hchecked, ⟨i, q⟩, hvisit, h⟩ := hright
    refine ⟨r, i, q, hchecked, hvisit, (htargets q).mp ?_⟩
    cases hfind : m.events.find? fun e => e.node ∉ q.finished with
    | none => rfl
    | some e =>
      simp only [hfind] at h
      cases h
  · intro hright
    obtain ⟨r, i, q, hchecked, hvisit, hevents⟩ := hright
    refine ⟨⟨i, q.bindings, m.handlers⟩, r, hchecked, (i, q), hvisit, ?_⟩
    dsimp only
    rw [(htargets q).mpr hevents]
    rfl

/-- The visit of the root succeeds where what it unfolds to fits and ends within the levels. -/
theorem visit_root_succeeds {r : Node} (hr : m.tree.get? m.tree.root = some r) (hid : r.id = none) :
    (∃ i q, Gives (m.visit (m.descend nestingLevels) true [] r) {} i q ∧
        ∀ e ∈ m.events, e.node ∈ q.finished) ↔
      (∀ property ∈ r.properties, Admits true r property) ∧
        m.tree.settled.level (nestingLevels + 1) m.tree.root = [] ∧
        m.Fits [] {} (m.tree.settled.unfold (nestingLevels + 1) m.tree.root) ∧
        ∀ e ∈ m.events, e.node ∈ m.tree.settled.unfold (nestingLevels + 1) m.tree.root := by
  obtain ⟨-, hkey⟩ := Tree.get?_mem hr
  rw [← hkey] at hr
  have hroot : decide (r.key = m.tree.root) = true := decide_eq_true hkey
  have hpath : m.tree.root ∈ [r.key] := by simp [hkey]
  have hid' : true = true → r.id = none := fun _ => hid
  have hv := child_covers nestingLevels hpath r
  have hsucceeds := visit_succeeds (p := {}) hr hid' hv List.not_mem_nil
  have hevents (i q) (h : Gives (m.visit (m.descend nestingLevels) true [] r) {} i q) :
      (∀ e ∈ m.events, e.node ∈ q.finished) ↔
        ∀ e ∈ m.events, e.node ∈ m.tree.settled.unfold (nestingLevels + 1) m.tree.root := by
    have hmarks := visit_marks hr hid' hv h
    rw [← hkey, settled_unfold hr hroot]
    simp only [hmarks.finished, List.not_mem_nil, or_false]
  rw [← settled_unfold hr hroot, ← settled_level hr hroot, hkey] at hsucceeds
  constructor
  · intro hright
    obtain ⟨i, q, h, hfinished⟩ := hright
    obtain ⟨⟨hadmits, hlevel⟩, hfits⟩ := hsucceeds.mp ⟨i, q, h⟩
    exact ⟨hadmits, hlevel, hfits, (hevents i q h).mp hfinished⟩
  · intro hright
    obtain ⟨hadmits, hlevel, hfits, hmet⟩ := hright
    obtain ⟨i, q, h⟩ := hsucceeds.mpr ⟨⟨hadmits, hlevel⟩, hfits⟩
    exact ⟨i, q, h, (hevents i q h).mpr hmet⟩

/-- The root's unfolding fits where its nodes are there, are met once and can be told apart. -/
theorem fits_root_iff (h : m.tree.settled.level (nestingLevels + 1) m.tree.root = []) :
    m.Fits [] {} (m.tree.settled.unfold (nestingLevels + 1) m.tree.root) ↔
      (∀ key, m.tree.settled.Unfolds key → ∃ n, m.tree.get? key = some n) ∧
      (∀ n, m.Unfolded n → ∀ p ∈ n.properties, ¬p.Reserved) ∧
      (∀ levels, (m.tree.settled.unfold levels m.tree.root).Nodup) ∧
      (∀ n id, m.Unfolded n → n.id = some id → ¬Synthetic id) ∧
      ∀ n n' id, m.Unfolded n → m.Unfolded n' → n.id = some id → n'.id = some id →
        n.key = n'.key := by
  have hunfolds (key : NodeKey) : m.tree.settled.Unfolds key ↔
      key ∈ m.tree.settled.unfold (nestingLevels + 1) m.tree.root := Tree.unfolds_iff_mem h
  have honce : (∀ levels, (m.tree.settled.unfold levels m.tree.root).Nodup) ↔
      (m.tree.settled.unfold (nestingLevels + 1) m.tree.root).Nodup :=
    ⟨fun hall => hall _, fun hnodup levels => hnodup.sublist (Tree.unfold_sublist_of_level_nil h levels)⟩
  simp only [honce, unfolded_iff, hunfolds]
  generalize m.tree.settled.unfold (nestingLevels + 1) m.tree.root = keys
  constructor
  · intro hfits
    refine ⟨fun key hkey => ?_, fun n hn => ?_, hfits.fresh.1, fun n id hn hid => ?_, ?_⟩
    · obtain ⟨n, hn, -⟩ := hfits.nodes key hkey
      exact ⟨n, hn⟩
    · obtain ⟨n', hn', hunreserved⟩ := hfits.nodes n.key hn.1
      obtain rfl := Option.some.inj (hn.2.symm.trans hn')
      exact hunreserved
    · exact hfits.unsynthetic id (mem_idsOf.mpr ⟨n, hn.1, hn.2, hid⟩)
    · intro n n' id hn hn'
      exact (nodup_idsOf hfits.fresh.1).mp hfits.free.1 n n' id hn.1 hn.2 hn'.1 hn'.2
  · intro hright
    obtain ⟨hpresent, hunreserved, hnodup, hunsynthetic, hidentities⟩ := hright
    refine ⟨fun key hkey => ?_, ⟨hnodup, by simp⟩, fun id hid => ?_, ⟨?_, by simp⟩⟩
    · obtain ⟨n, hn⟩ := hpresent key hkey
      obtain ⟨-, rfl⟩ := Tree.get?_mem hn
      exact ⟨n, hn, hunreserved n ⟨hkey, hn⟩⟩
    · obtain ⟨n, hkey, hn, hid⟩ := mem_idsOf.mp hid
      exact hunsynthetic n id ⟨hkey, hn⟩ hid
    · exact (nodup_idsOf hnodup).mpr fun n n' id hkey hn hkey' hn' =>
        hidentities n n' id ⟨hkey, hn⟩ ⟨hkey', hn'⟩

/-- At the root nothing stands for content beside other content. -/
theorem admits_root_iff {r : Node} :
    (∀ p ∈ r.properties, Admits true r p) ↔
      (∀ p ∈ r.properties, ¬p.Reserved) ∧
        (r.content = [] ∨ ∀ p ∈ r.properties, p.name ≠ contentProperty) := by
  constructor
  · intro h
    refine ⟨fun p hp => (h p hp).unreserved, ?_⟩
    by_cases hcontent : r.content = []
    · exact .inl hcontent
    · exact .inr fun p hp hname => hcontent ((h p hp).once rfl hname)
  · intro hright p hp
    obtain ⟨hunreserved, honce⟩ := hright
    refine ⟨hunreserved p hp, fun _ hname => ?_⟩
    rcases honce with hcontent | hother
    · exact hcontent
    · exact absurd hname (hother p hp)

theorem wellFormed_of_linearize {l : Linearized} (h : m.linearize = .ok l) : m.WellFormed := by
  obtain ⟨r, i, q, hchecked, hvisit, hfinished⟩ := linearize_succeeds.mp ⟨l, h⟩
  obtain ⟨hdistinct, hr, hid, -⟩ := checked_eq_ok.mp hchecked
  obtain ⟨hadmits, hlevel, hfits, hevents⟩ := (visit_root_succeeds hr hid).mp ⟨i, q, hvisit, hfinished⟩
  obtain ⟨hpresent, hunreserved, honce, hunsynthetic, hidentities⟩ := (fits_root_iff hlevel).mp hfits
  exact {
    distinct := hdistinct
    root := ⟨r, hr, hid, (admits_root_iff.mp hadmits).2⟩
    present := hpresent
    once := honce
    shallow := fun depth hdepth => Tree.level_eq_nil_of_le hlevel hdepth
    unreserved := hunreserved
    identities := hidentities
    unsynthetic := hunsynthetic
    events := fun e he => ⟨_, hevents e he⟩ }

theorem WellFormed.linearize (h : m.WellFormed) : ∃ l, m.linearize = .ok l := by
  obtain ⟨r, hr, hid, hcontent⟩ := h.root
  have hlevel := h.shallow (nestingLevels + 1) (Nat.lt_succ_self _)
  have hkey : r.key = m.tree.root := (Tree.get?_mem hr).2
  have hmet : m.Unfolded r := ⟨⟨1, by simp [hkey, Tree.unfold, Tree.settled]⟩, hkey ▸ hr⟩
  have hfits := (fits_root_iff hlevel).mpr
    ⟨h.present, h.unreserved, h.once, h.unsynthetic, h.identities⟩
  have hevents : ∀ e ∈ m.events, e.node ∈ m.tree.settled.unfold (nestingLevels + 1) m.tree.root :=
    fun e he => (Tree.unfolds_iff_mem hlevel).mp (h.events e he)
  have htargets : ∀ e ∈ m.events, (m.tree.get? e.node).isSome :=
    fun e he => Option.isSome_iff_exists.mpr (h.present _ (h.events e he))
  obtain ⟨i, q, hvisit, hfinished⟩ := (visit_root_succeeds hr hid).mpr
    ⟨admits_root_iff.mpr ⟨h.unreserved r hmet, hcontent⟩, hlevel, hfits, hevents⟩
  exact linearize_succeeds.mpr
    ⟨r, i, q, checked_eq_ok.mpr ⟨h.distinct, hr, hid, htargets⟩, hvisit, hfinished⟩

end Markup

/-- **Linearization succeeds on the well-formed trees with events, and on no others.** -/
theorem linearize_ok_iff_wellFormed (m : Markup) : (∃ l, m.linearize = .ok l) ↔ m.WellFormed := by
  constructor
  · intro hright
    obtain ⟨l, h⟩ := hright
    exact Markup.wellFormed_of_linearize h
  · exact Markup.WellFormed.linearize

end Lowering