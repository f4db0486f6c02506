import Lowering.Proofs.Linearize.Fitting
import Lowering.Proofs.Source.Unfolding

/-! What descending covers.

Inside of a node the walk covers what its children cover, in the order in which the settled
node has them. Visiting the node comes down to that, once its identity is free and none of
its properties is refused (`visit_succeeds`). By induction on the levels that are left,
descending to a child covers what the child unfolds to, given that this ends within the
levels (`child_covers`). -/
namespace Lowering.Markup

variable {m : Markup} {path : List NodeKey} {p q : Progress}

/-! ### Children and properties -/

/-- A property that stands for no identity, nor for content beside other content. -/
structure Admits (isRoot : Bool) (n : Node) (property : Property) : Prop where
  unreserved : ¬property.Reserved
  once : isRoot → property.name = contentProperty → n.content = []

/-- The children of a property that are visited with it. -/
def visited (isRoot : Bool) (property : Property) : List NodeKey :=
  if isRootContent isRoot property then [] else property.value.children

theorem settled_children (isRoot : Bool) (n : Node) :
    (n.settled isRoot).children = n.properties.flatMap (visited isRoot) ++ contentOf isRoot n := by
  have hkept (properties : List Property) :
      (properties.filter (!isRootContent isRoot ·)).flatMap (·.value.children) =
        properties.flatMap (visited isRoot) := by
    induction properties with
    | nil => rfl
    | cons property rest ih =>
      rw [List.filter_cons, List.flatMap_cons, visited, ← ih]
      cases isRootContent isRoot property <;> rfl
  rw [Node.children, Node.settled_properties, Node.settled_content, hkept]

section
variable {visit : NodeKey → Walk Instruction} {c : NodeKey → Prop} {below : NodeKey → List NodeKey}
  (hv : ∀ key, m.Covers path (visit key) (c key) (below key))

include hv

theorem value_covers (value : PropertyValue) :
    m.Covers path (instructionValue visit value) (∀ key ∈ value.children, c key)
      (value.children.flatMap below) := by
  cases value with
  | literal | expression => simpa [instructionValue, PropertyValue.children] using covers_pure
  | node key => simpa [instructionValue, PropertyValue.children] using (hv key).andThen
  | nodes keys => exact (covers_mapM hv).andThen

theorem property_covers (isRoot : Bool) (n : Node) (property : Property) :
    m.Covers path (m.property visit isRoot n property)
      (Admits isRoot n property ∧ ∀ key ∈ visited isRoot property, c key)
      ((visited isRoot property).flatMap below) := by
  have hadmits : Admits isRoot n property ↔ ¬isIdentityProperty property.name ∧
      ¬(isRoot && property.name = contentProperty && !n.content.isEmpty) := by
    rw [Property.reserved_iff]
    constructor
    · intro h
      exact ⟨h.unreserved, by simpa using h.once⟩
    · intro h
      exact ⟨h.1, by simpa using h.2⟩
  rw [hadmits, and_assoc]
  refine (Covers.guard ?_).guard
  rw [visited]
  split
  · simpa using covers_pure
  · exact (value_covers hv property.value).andThen

end

theorem inside_covers {visit : NodeKey → Walk Instruction} {c : NodeKey → Prop}
    {below : NodeKey → List NodeKey} (hv : ∀ key, m.Covers path (visit key) (c key) (below key))
    (isRoot : Bool) (n : Node) :
    m.Covers path (m.inside visit isRoot n)
      ((∀ property ∈ n.properties, Admits isRoot n property) ∧
        ∀ key ∈ (n.settled isRoot).children, c key)
      ((n.settled isRoot).children.flatMap below) := by
  rw [settled_children, List.flatMap_append, List.flatMap_assoc, List.forall_mem_append,
    List.forall_mem_flatMap, ← and_assoc, ← forall₂_and]
  exact (covers_mapM (property_covers hv isRoot n)).bind fun _ => (covers_mapM hv).andThen

/-! ### One node -/

/-- A node can be bound where its identity, if the source gives one, is free. -/
theorem bind_succeeds {n : Node} :
    (∃ d q, Gives (m.bind n) p d q) ↔ ∀ id, n.id = some id → ¬Synthetic id ∧ id ∉ p.ids := by
  have hfree (id : String) : ¬(isBindingName id || isHandlerName id || id ∈ p.ids) ↔
      ¬Synthetic id ∧ id ∉ p.ids := by
    rw [Bool.or_eq_true, synthetic_iff, not_or, decide_eq_true_eq]
  unfold bind
  cases n.id with
  | some id =>
    constructor
    · intro hright id' hid
      obtain ⟨d, q, h⟩ := hright
      obtain ⟨_, _, htake, -⟩ := gives_bind.mp h
      obtain rfl := Option.some.inj hid
      exact (hfree id).mp (gives_takeId.mp htake).1
    · intro h
      exact ⟨_, _, gives_bind.mpr ⟨_, _, gives_takeId.mpr ⟨(hfree id).mpr (h id rfl), rfl, rfl⟩,
        gives_bind.mpr ⟨⟨⟩, _, gives_modify.mpr rfl, gives_pure.mpr ⟨rfl, rfl⟩⟩⟩⟩
  | none =>
    refine ⟨fun _ => nofun, fun _ => ?_⟩
    exact ⟨_, _, gives_bind.mpr ⟨_, _, gives_makeId.mpr ⟨rfl, rfl⟩,
      gives_bind.mpr ⟨⟨⟩, _, gives_modify.mpr rfl, gives_pure.mpr ⟨rfl, rfl⟩⟩⟩⟩

section
variable {isRoot : Bool} {n : Node} (hroot : isRoot → n.id = none)

include hroot

theorem identify_succeeds :
    (∃ d q, Gives (m.identify isRoot n) p d q) ↔
      ∀ id, n.id = some id → ¬Synthetic id ∧ id ∉ p.ids := by
  cases isRoot with
  | true =>
    rw [hroot rfl]
    exact ⟨fun _ => nofun, fun _ => ⟨none, p, gives_pure.mpr ⟨rfl, rfl⟩⟩⟩
  | false =>
    rw [← bind_succeeds]
    constructor
    · intro hright
      obtain ⟨d, q, h⟩ := hright
      obtain ⟨identity, h, -⟩ := gives_map.mp h
      exact ⟨identity, q, h⟩
    · intro hright
      obtain ⟨d, q, h⟩ := hright
      exact ⟨some d, q, gives_map.mpr ⟨d, h, rfl⟩⟩

theorem identify_gives {d : Option Identity} (h : Gives (m.identify isRoot n) p d q) :
    q.finished = p.finished ∧ q.ids = n.id.toList ++ p.ids := by
  cases isRoot with
  | true =>
    obtain ⟨-, rfl⟩ := gives_pure.mp h
    exact ⟨rfl, by rw [hroot rfl]; rfl⟩
  | false =>
    obtain ⟨identity, h, -⟩ := gives_map.mp h
    obtain ⟨-, hfinished, -, hids⟩ := bind_gives h
    exact ⟨hfinished, hids⟩

end

section
variable {descend : Descent} {isRoot : Bool} {above : List NodeKey} {n : Node} {c : NodeKey → Prop}
  {below : NodeKey → List NodeKey} (hn : m.tree.get? n.key = some n) (hroot : isRoot → n.id = none)
  (hv : ∀ key, m.Covers (n.key :: above) (m.child descend (n.key :: above) n key) (c key) (below key))

include hn hroot hv

theorem visit_succeeds (hnew : n.key ∉ above ++ p.finished) :
    (∃ i q, Gives (m.visit descend isRoot above n) p i q) ↔
      ((∀ property ∈ n.properties, Admits isRoot n property) ∧
        ∀ key ∈ (n.settled isRoot).children, c key) ∧
      m.Fits above p (n.key :: (n.settled isRoot).children.flatMap below) := by
  have hinside := inside_covers hv isRoot n
  simp only [visit_gives]
  constructor
  · intro hright
    obtain ⟨i, q, d, p₁, r, p₂, hidentity, hgives, -⟩ := hright
    obtain ⟨hfinished, hids⟩ := identify_gives hroot hidentity
    obtain ⟨hc, hfits⟩ := (hinside.succeeds p₁).mp ⟨r, p₂, hgives⟩
    exact ⟨hc, (fits_cons hn hfinished hids).mpr ⟨fun property hp => (hc.1 property hp).unreserved, hnew,
      (identify_succeeds hroot).mp ⟨d, p₁, hidentity⟩, hfits⟩⟩
  · intro hright
    obtain ⟨hc, hfits⟩ := hright
    -- Whether the identity is free is known before there is a state in which it is taken.
    have hfree := ((fits_cons (p := p) (q := { p with ids := n.id.toList ++ p.ids }) hn rfl rfl).mp hfits).2.2.1
    obtain ⟨d, p₁, hidentity⟩ := (identify_succeeds hroot).mpr hfree
    obtain ⟨hfinished, hids⟩ := identify_gives hroot hidentity
    have hbelow := ((fits_cons hn hfinished hids).mp hfits).2.2.2
    obtain ⟨r, p₂, hgives⟩ := (hinside.succeeds p₁).mpr ⟨hc, hbelow⟩
    exact ⟨_, _, d, p₁, r, p₂, hidentity, hgives, rfl, rfl⟩

theorem visit_marks {i : Instruction} (h : Gives (m.visit descend isRoot above n) p i q) :
    m.Marks (n.key :: (n.settled isRoot).children.flatMap below) p q := by
  obtain ⟨d, p₁, r, p₂, hidentity, hgives, -, rfl⟩ := visit_gives.mp h
  obtain ⟨hfinished, hids⟩ := identify_gives hroot hidentity
  have hmarks := (inside_covers hv isRoot n).marks p₁ r p₂ hgives
  constructor
  · intro key
    rw [List.mem_cons, List.mem_cons, hmarks.finished, hfinished, or_assoc]
  · intro id
    rw [idsOf_cons hn, List.mem_append, hmarks.ids, hids, List.mem_append]
    tauto

end

/-! ### Descending -/

theorem not_child_gives {descend : Descent} {parent : Node} {key : NodeKey} {i : Instruction}
    (hn : m.tree.get? key = none) : ¬Gives (m.child descend path parent key) p i q := by
  intro h
  rw [child, hn] at h
  exact not_gives_throw h

theorem child_gives_iff {descend : Descent} {parent n : Node} {i : Instruction}
    (hn : m.tree.get? n.key = some n) :
    Gives (m.child descend path parent n.key) p i q ↔
      n.key ∉ path ++ p.finished ∧ Gives (descend path n) p i q := by
  rw [child, hn, List.mem_append, not_or, and_assoc]
  refine gives_guard.trans (and_congr_right fun _ => gives_bind.trans ?_)
  simp only [gives_get]
  constructor
  · intro hright
    obtain ⟨_, _, ⟨rfl, rfl⟩, h⟩ := hright
    exact gives_guard.mp h
  · exact fun h => ⟨p, p, ⟨rfl, rfl⟩, gives_guard.mpr h⟩

section
variable {n : Node} {isRoot : Bool} (hn : m.tree.get? n.key = some n)
  (hkey : decide (n.key = m.tree.root) = isRoot)

include hn hkey

theorem settled_childrenOf : m.tree.settled.childrenOf n.key = (n.settled isRoot).children := by
  rw [← hkey]
  exact Tree.childrenOf_get? (by rw [Tree.get?_settled, hn, Option.map_some])

theorem settled_unfold (levels : Nat) :
    m.tree.settled.unfold (levels + 1) n.key =
      n.key :: (n.settled isRoot).children.flatMap (m.tree.settled.unfold levels) := by
  rw [← settled_childrenOf hn hkey]
  rfl

theorem settled_level (levels : Nat) :
    m.tree.settled.level (levels + 1) n.key = [] ↔
      ∀ key ∈ (n.settled isRoot).children, m.tree.settled.level levels key = [] := by
  rw [← settled_childrenOf hn hkey, Tree.level_succ_eq_nil]

end

/-- One level more: where children are covered, so is descending to their parent. -/
theorem visit_covers {levels : Nat} {path : List NodeKey} (hroot : m.tree.root ∈ path) {parent n : Node}
    (hn : m.tree.get? n.key = some n)
    (hv : ∀ key, m.Covers (n.key :: path) (m.child (m.descend levels) (n.key :: path) n key)
      (m.tree.settled.level levels key = []) (m.tree.settled.unfold levels key)) :
    m.Covers path (m.child (m.descend (levels + 1)) path parent n.key)
      (m.tree.settled.level (levels + 1) n.key = []) (m.tree.settled.unfold (levels + 1) n.key) := by
  by_cases hopen : n.key ∈ path
  · refine covers_of_fails (fun p i q h => ?_) fun p _ hfits => ?_
    · exact ((child_gives_iff hn).mp h).1 (List.mem_append_left _ hopen)
    · exact hfits.fresh.2 n.key List.mem_cons_self (List.mem_append_left _ hopen)
  have hbelow : decide (n.key = m.tree.root) = false := decide_eq_false fun h => hopen (h ▸ hroot)
  have hid : false = true → n.id = none := nofun
  rw [settled_unfold hn hbelow, settled_level hn hbelow]
  constructor
  · intro p
    simp only [child_gives_iff hn, exists_and_left]
    by_cases hnew : n.key ∈ path ++ p.finished
    · refine ⟨fun h => absurd hnew h.1, fun h => absurd hnew (h.2.fresh.2 n.key List.mem_cons_self)⟩
    · rw [and_iff_right hnew]
      refine (visit_succeeds hn hid hv hnew).trans (and_congr_left fun hfits => and_iff_right ?_)
      intro property hp
      obtain ⟨n', hn', hunreserved⟩ := hfits.nodes n.key List.mem_cons_self
      obtain rfl := Option.some.inj (hn.symm.trans hn')
      exact ⟨hunreserved property hp, nofun⟩
  · intro p i q h
    exact visit_marks hn hid hv ((child_gives_iff hn).mp h).2

/-- Descending to a child covers what the child unfolds to, where the levels suffice. -/
theorem child_covers (levels : Nat) {path : List NodeKey} (hroot : m.tree.root ∈ path) (parent : Node)
    (key : NodeKey) :
    m.Covers path (m.child (m.descend levels) path parent key)
      (m.tree.settled.level levels key = []) (m.tree.settled.unfold levels key) := by
  induction levels generalizing path parent key with
  | zero =>
    refine covers_of_fails (fun p i q h => ?_) fun p hlevel => absurd hlevel (List.cons_ne_nil _ _)
    cases hn : m.tree.get? key with
    | none => exact not_child_gives hn h
    | some n =>
      obtain ⟨-, rfl⟩ := Tree.get?_mem hn
      exact not_gives_throw ((child_gives_iff hn).mp h).2
  | succ levels ih =>
    cases hn : m.tree.get? key with
    | none =>
      refine covers_of_fails (fun p i q => not_child_gives hn) fun p _ hfits => ?_
      obtain ⟨n, hn', -⟩ := hfits.nodes key List.mem_cons_self
      rw [hn] at hn'
      cases hn'
    | some n =>
      obtain ⟨-, rfl⟩ := Tree.get?_mem hn
      exact visit_covers hroot hn fun key => ih (List.mem_cons_of_mem _ hroot) n key

end Lowering.Markup
