import Lowering.Instruction.Token
import Lowering.Proofs.Linearize.Walk

/-! Content that the root assigns.

A node sequence that the root assigns to the content property is walked after all other properties,
wherever it stands among them, and so a root that has it as its content is walked alike
(`visit_assigned`). Below the root nothing differs, as a walk that comes back to the root fails
before it looks inside (`descend_congr`). Both trees linearize to the same, or fail for the same
reason (`assigned_content_is_default`). -/
namespace Lowering

/-- The node has no content but assigns it, between its other properties. -/
structure Node.AssignsContent (n : Node) (before : List Property) (keys : List NodeKey)
    (after : List Property) : Prop where
  properties : n.properties = before ++ ⟨contentProperty, .nodes keys⟩ :: after
  once : ∀ p ∈ before ++ after, p.name ≠ contentProperty
  content : n.content = []

/-- The node with other properties, and with content. -/
def Node.withContent (n : Node) (properties : List Property) (keys : List NodeKey) : Node :=
  { n with properties, content := keys }

/-- The markup with other nodes in its tree. -/
def Markup.withNodes (m : Markup) (nodes : List Node) : Markup :=
  { m with tree := { m.tree with nodes } }

namespace Markup

variable {m : Markup} {t : Tree} {root root' : Node}

/-- The other tree has the same nodes but for its root, which has the same key, type and place in
the source. -/
structure SameBelow (m : Markup) (t : Tree) (root root' : Node) : Prop where
  top : t.root = m.tree.root
  below : ∀ key, key ≠ m.tree.root → t.get? key = m.tree.get? key
  found : m.tree.get? m.tree.root = some root
  found' : t.get? m.tree.root = some root'
  target : root'.target = root.target
  location : root'.location = root.location

/-! ### Below the root -/

section
variable {descend descend' : Descent} {path : List NodeKey} (h : m.SameBelow t root root')
include h

/-- Inside the root, children are walked alike: the root itself is none. -/
theorem child_congr (hd : ∀ n, descend' path n = descend path n) (hpath : m.tree.root ∈ path)
    {parent parent' : Node} (hplace : m.placeOf parent' = m.placeOf parent) :
    { m with tree := t }.child descend' path parent' = m.child descend path parent := by
  funext key
  have hplace' : { m with tree := t }.placeOf parent' = m.placeOf parent := hplace
  unfold child
  rw [hplace']
  by_cases hkey : key = m.tree.root
  · subst hkey
    simp only [h.found, h.found', h.target, if_pos hpath]
    rfl
  · simp only [h.below key hkey, hd]

theorem visit_congr (hd : ∀ path n, m.tree.root ∈ path → descend' path n = descend path n)
    (hpath : m.tree.root ∈ path) (n : Node) :
    { m with tree := t }.visit descend' false path n = m.visit descend false path n := by
  have hinside : m.tree.root ∈ n.key :: path := List.mem_cons_of_mem n.key hpath
  have hchild : { m with tree := t }.child descend' (n.key :: path) n = m.child descend (n.key :: path) n :=
    child_congr h (fun n' => hd (n.key :: path) n' hinside) hinside rfl
  rw [visit_eq, visit_eq, hchild]
  rfl

/-- Inside the root, a walk is the same in both trees. -/
theorem descend_congr (levels : Nat) (hpath : m.tree.root ∈ path) (n : Node) :
    { m with tree := t }.descend levels path n = m.descend levels path n := by
  induction levels generalizing path n with
  | zero => rfl
  | succ levels ih => exact visit_congr h (fun path n hpath => ih hpath n) hpath n

end

/-! ### The root -/

section
variable {before after : List Property} {keys : List NodeKey} {visit : NodeKey → Walk Instruction}

/-- A property of another name does not stand for content. -/
theorem isRootContent_of_ne {p : Property} (hp : p.name ≠ contentProperty) : isRootContent true p = false := by
  unfold isRootContent
  split
  · rw [Bool.true_and, decide_eq_false hp]
  · rfl

theorem filter_isRootContent {properties : List Property} (h : ∀ p ∈ properties, p.name ≠ contentProperty) :
    properties.filter (isRootContent true) = [] :=
  List.filter_eq_nil_iff.mpr fun p hp => by
    rw [isRootContent_of_ne (h p hp)]
    exact Bool.false_ne_true

/-- What the root assigns is its content. -/
theorem contentOf_assigned (h : root.AssignsContent before keys after) : contentOf true root = keys := by
  obtain ⟨hbefore, hafter⟩ := List.forall_mem_append.mp h.once
  rw [contentOf, h.properties, List.filter_append, filter_isRootContent hbefore, List.filter_cons,
    filter_isRootContent hafter]
  rfl

theorem contentOf_withContent {properties : List Property} (h : ∀ p ∈ properties, p.name ≠ contentProperty) :
    contentOf true (root.withContent properties keys) = keys := by
  rw [contentOf, Node.withContent, filter_isRootContent h]
  rfl

/-- The assigned content is left for later. -/
theorem property_assigned (h : root.AssignsContent before keys after) :
    m.property visit true root ⟨contentProperty, .nodes keys⟩ = pure none := by
  unfold property
  rw [h.content]
  rfl

/-- Where content stands does not matter to other properties. -/
theorem property_other {p : Property} (hp : p.name ≠ contentProperty) (properties : List Property) :
    m.property visit true (root.withContent properties keys) p = m.property visit true root p := by
  unfold property
  simp only [decide_eq_false hp, Bool.and_false, Bool.false_and]
  rfl

theorem mapM_property_other {others : List Property} (h : ∀ p ∈ others, p.name ≠ contentProperty)
    (properties : List Property) :
    others.mapM (m.property visit true (root.withContent properties keys)) =
      others.mapM (m.property visit true root) := by
  induction others with
  | nil => rfl
  | cons p rest ih =>
    obtain ⟨hp, hrest⟩ := List.forall_mem_cons.mp h
    rw [List.mapM_cons, List.mapM_cons, property_other hp, ih hrest]

theorem visit_root_eq (descend : Descent) (above : List NodeKey) (n : Node) :
    m.visit descend true above n = (do
      let made ← m.inside (m.child descend (n.key :: above) n) true n
      modify fun p => { p with finished := n.key :: p.finished }
      return m.instruction n none made) := by
  rw [visit_eq, identify, if_pos rfl, pure_bind]

/-- The root makes the same instruction whether it assigns its content or has it: its other properties
are walked first, and then the content. -/
theorem instruction_assigned (h : root.AssignsContent before keys after) (identity : Option Identity)
    (finish : Walk PUnit) :
    (do
      let made ← m.inside visit true (root.withContent (before ++ after) keys)
      finish
      return m.instruction (root.withContent (before ++ after) keys) identity made) =
    (do
      let made ← m.inside visit true root
      finish
      return m.instruction root identity made) := by
  obtain ⟨hbefore, hafter⟩ := List.forall_mem_append.mp h.once
  have hproperties : (root.withContent (before ++ after) keys).properties = before ++ after := rfl
  unfold inside
  rw [contentOf_withContent h.once, contentOf_assigned h, h.properties, hproperties]
  simp only [List.mapM_append, List.mapM_cons, property_assigned h, mapM_property_other hbefore,
    mapM_property_other hafter, bind_assoc, pure_bind]
  -- what is made of the assigned content is nothing
  have hmade (first second : List (Option (String × InstructionValue))) (content : List Instruction) :
      m.instruction (root.withContent (before ++ after) keys) identity (first ++ second, content) =
        m.instruction root identity (first ++ none :: second, content) := by
    simp only [instruction, List.filterMap_append, List.filterMap_cons, id]
    rfl
  simp only [hmade]

/-- Walked from the root, both trees give the same. -/
theorem visit_assigned (h : root.AssignsContent before keys after)
    (hbelow : m.SameBelow t root (root.withContent (before ++ after) keys)) (levels : Nat) :
    { m with tree := t }.visit ({ m with tree := t }.descend levels) true []
      (root.withContent (before ++ after) keys) = m.visit (m.descend levels) true [] root := by
  obtain ⟨-, hkey⟩ := Tree.get?_mem hbelow.found
  have hpath : m.tree.root ∈ [root.key] := List.mem_singleton.mpr hkey.symm
  have hchild : { m with tree := t }.child ({ m with tree := t }.descend levels) [root.key]
      (root.withContent (before ++ after) keys) = m.child (m.descend levels) [root.key] root :=
    child_congr hbelow (descend_congr hbelow levels hpath) hpath rfl
  rw [visit_root_eq, visit_root_eq, ← hchild]
  exact instruction_assigned h none _

end

/-! ### The whole tree -/

/-- A key that is used twice is found at the same place whatever else nodes are. -/
theorem repeated?_congr {nodes nodes' : List Node} {f : Node → NodeKey × Option Location}
    (hf : f = fun n => (n.key, n.location)) (h : nodes'.map f = nodes.map f) (seen : List NodeKey) :
    (repeated? seen nodes').map f = (repeated? seen nodes).map f := by
  subst hf
  induction nodes generalizing nodes' seen with
  | nil =>
    rw [List.map_eq_nil_iff.mp h]
  | cons n rest ih =>
    obtain ⟨n', rest', rfl, hn, hrest⟩ := List.map_eq_cons_iff.mp h
    have hkey : n'.key = n.key := congrArg Prod.fst hn
    rw [repeated?, repeated?, hkey]
    split
    · exact congrArg some hn
    · exact ih _ hrest

section
variable {front back : List Node} (hnodes : m.tree.nodes = front ++ root :: back) (hkey : root.key = m.tree.root)
include hnodes hkey

/-- Where no other node has its key, the root can be exchanged for one that has. -/
theorem sameBelow_of_nodes (hfront : ∀ n ∈ front, n.key ≠ m.tree.root) (hkey' : root'.key = root.key)
    (htarget : root'.target = root.target) (hlocation : root'.location = root.location) :
    m.SameBelow ⟨m.tree.root, front ++ root' :: back⟩ root root' := by
  have hnone : front.find? (·.key = m.tree.root) = none :=
    List.find?_eq_none.mpr fun n hn => by simpa using hfront n hn
  constructor
  case top => rfl
  case below =>
    intro key hother
    have hskip : ¬root.key = key := fun heq => hother (heq ▸ hkey)
    rw [Tree.get?, Tree.get?, hnodes, List.find?_append, List.find?_append,
      List.find?_cons_of_neg (by simpa [hkey'] using hskip), List.find?_cons_of_neg (by simpa using hskip)]
  case found =>
    rw [Tree.get?, hnodes, List.find?_append, hnone, Option.none_or,
      List.find?_cons_of_pos (by simpa using hkey)]
  case found' =>
    rw [Tree.get?, List.find?_append, hnone, Option.none_or,
      List.find?_cons_of_pos (by simpa [hkey'] using hkey)]
  case target => exact htarget
  case location => exact hlocation

end

/-- The events find the same nodes in both trees. -/
theorem SameBelow.isNone_get? (h : m.SameBelow t root root') (key : NodeKey) :
    (t.get? key).isNone = (m.tree.get? key).isNone := by
  by_cases hkey : key = m.tree.root
  · rw [hkey, h.found, h.found']
    rfl
  · rw [h.below key hkey]

theorem malformed_congr {n n' : Node} (h : n'.location = n.location) (fault : TreeFault) :
    m.malformed fault n' = m.malformed fault n := by
  rw [malformed, malformed, placeOf, placeOf, h]

/-- If the root of the one tree passes the checks, so does that of the other, which differs in what it
says of itself. -/
theorem SameBelow.checked_of_distinct (h : m.SameBelow t root root') (hid : root'.id = root.id)
    (hnone : repeated? [] m.tree.nodes = none) (hnone' : repeated? [] t.nodes = none) :
    (∃ e, m.checked = .error e ∧ { m with tree := t }.checked = .error e) ∨
      (m.checked = .ok root ∧ { m with tree := t }.checked = .ok root') := by
  have hfind : (m.events.find? fun e => (t.get? e.node).isNone) =
      m.events.find? fun e => (m.tree.get? e.node).isNone :=
    congrArg (m.events.find? ·) (funext fun e => h.isNone_get? e.node)
  have hroot' : t.get? t.root = some root' := by rw [h.top, h.found']
  rw [checked_of_root hnone h.found, checked_of_root (m := { m with tree := t }) hnone' hroot', hid]
  have hmalformed := malformed_congr (m := m) h.location .rootWithId
  dsimp only
  rw [hfind]
  split
  · exact .inl ⟨_, rfl, congrArg Except.error hmalformed⟩
  · split
    · exact .inl ⟨_, rfl, rfl⟩
    · exact .inr ⟨rfl, rfl⟩

/-- The checks of both trees fail for the same reason, or lead to walks from the two roots. -/
theorem checked_assigned {front back : List Node} (properties : List Property) (keys : List NodeKey)
    (hnodes : m.tree.nodes = front ++ root :: back) (hkey : root.key = m.tree.root)
    (ht : t = ⟨m.tree.root, front ++ root.withContent properties keys :: back⟩) :
    (∃ e, m.checked = .error e ∧ { m with tree := t }.checked = .error e) ∨
      (m.checked = .ok root ∧ { m with tree := t }.checked = .ok (root.withContent properties keys) ∧
        m.SameBelow t root (root.withContent properties keys)) := by
  have hmap : t.nodes.map (fun n => (n.key, n.location)) = m.tree.nodes.map fun n => (n.key, n.location) := by
    rw [ht, hnodes, List.map_append, List.map_append]
    rfl
  have hsame := repeated?_congr rfl hmap []
  cases hrepeated : repeated? [] m.tree.nodes with
  | some n =>
    rw [hrepeated] at hsame
    obtain ⟨n', hn', heq⟩ := Option.map_eq_some_iff.mp hsame
    obtain ⟨hkeys, hlocations⟩ := Prod.mk.inj heq
    refine .inl ⟨_, checked_of_repeated hrepeated, ?_⟩
    rw [← hkeys, ← malformed_congr hlocations]
    exact checked_of_repeated (m := { m with tree := t }) hn'
  | none =>
    rw [hrepeated] at hsame
    have hdistinct := (repeated?_eq_none.mp hrepeated).1
    rw [hnodes, List.map_append, List.map_cons] at hdistinct
    have hfront : ∀ n ∈ front, n.key ≠ m.tree.root := by
      intro n hn heq
      have hdisjoint := (List.nodup_append.mp hdistinct).2.2 n.key (List.mem_map_of_mem hn) root.key
        List.mem_cons_self
      exact hdisjoint (heq.trans hkey.symm)
    have hbelow : m.SameBelow t root (root.withContent properties keys) := by
      rw [ht]
      exact sameBelow_of_nodes hnodes hkey hfront rfl rfl rfl
    have hchecked := hbelow.checked_of_distinct rfl hrepeated (Option.map_eq_none_iff.mp hsame)
    exact hchecked.imp_right fun h => ⟨h.1, h.2, hbelow⟩

variable (m) in
/-- What a walk from the root gives, if every event is at a node that it has finished. -/
def concluded (walked : Instruction × Progress) : Except Error Linearized :=
  match m.events.find? fun e => e.node ∉ walked.2.finished with
  | some e => .error (m.unknownTarget e)
  | none => .ok ⟨walked.1, walked.2.bindings, m.handlers⟩

theorem linearize_of_checked (h : m.checked = .ok root) :
    m.linearize = (m.visit (m.descend nestingLevels) true [] root).run {} >>= m.concluded := by
  unfold linearize
  rw [h]
  refine congrArg (((m.visit (m.descend nestingLevels) true [] root).run {}).bind ·) (funext fun walked => ?_)
  unfold concluded
  dsimp only
  cases m.events.find? fun e => e.node ∉ walked.2.finished <;> rfl

theorem linearize_of_not_checked {e : Error} (h : m.checked = .error e) : m.linearize = .error e := by
  unfold linearize
  rw [h]
  rfl

end Markup

/-- **Content that the root assigns is its content: wherever the assignment stands among the other
properties, the tree linearizes to the same as the one in which it is taken out and its nodes are the
content of the root, or fails for the same reason. So the arrays of both roots are the same.** -/
theorem assigned_content_is_default {ρ : Type} (m : Markup) (front back : List Node) (root : Node)
    (before after : List Property) (keys : List NodeKey) (hnodes : m.tree.nodes = front ++ root :: back)
    (hroot : root.key = m.tree.root) (hassigned : root.AssignsContent before keys after) :
    (m.withNodes (front ++ root.withContent (before ++ after) keys :: back)).linearize = m.linearize ∧
      ∀ l, m.linearize = .ok l → ∃ l',
        (m.withNodes (front ++ root.withContent (before ++ after) keys :: back)).linearize = .ok l' ∧
          ∀ nameOf : Name → ρ, l'.root.encodeRoot nameOf = l.root.encodeRoot nameOf := by
  have hsame : (m.withNodes (front ++ root.withContent (before ++ after) keys :: back)).linearize =
      m.linearize := by
    rcases Markup.checked_assigned (before ++ after) keys hnodes hroot rfl with
      ⟨e, hchecked, hchecked'⟩ | ⟨hchecked, hchecked', hbelow⟩
    · exact (Markup.linearize_of_not_checked hchecked').trans (Markup.linearize_of_not_checked hchecked).symm
    · have hwalk := Markup.visit_assigned hassigned hbelow Markup.nestingLevels
      rw [Markup.linearize_of_checked hchecked, ← hwalk]
      exact Markup.linearize_of_checked hchecked'
  refine ⟨hsame, fun l hl => ⟨l, hsame.trans hl, fun _ => rfl⟩⟩

/-- A drawer that assigns its content, two labels, between its header and its footer, both nodes. -/
def drawer : Markup where
  owner := ⟨"app.Drawer"⟩
  tree := {
    root := ⟨0⟩
    nodes := [
      { key := ⟨1⟩, target := ⟨"ui.Header"⟩ },
      { key := ⟨0⟩, target := ⟨"ui.Drawer"⟩
        properties := [⟨"header", .node ⟨1⟩⟩, ⟨contentProperty, .nodes [⟨2⟩, ⟨3⟩]⟩, ⟨"footer", .node ⟨4⟩⟩] },
      { key := ⟨2⟩, target := ⟨"ui.Label"⟩ },
      { key := ⟨3⟩, target := ⟨"ui.Label"⟩, id := some "status" },
      { key := ⟨4⟩, target := ⟨"ui.Footer"⟩ }] }
  events := [{ event := "click", node := ⟨3⟩ }]

/-- The labels are numbered behind the footer, as they are where the drawer has them as its content. -/
theorem drawer_content_is_default :
    ∃ l, drawer.linearize = .ok l ∧
      (drawer.withNodes [
        { key := ⟨1⟩, target := ⟨"ui.Header"⟩ },
        { key := ⟨0⟩, target := ⟨"ui.Drawer"⟩
          properties := [⟨"header", .node ⟨1⟩⟩, ⟨"footer", .node ⟨4⟩⟩]
          content := [⟨2⟩, ⟨3⟩] },
        { key := ⟨2⟩, target := ⟨"ui.Label"⟩ },
        { key := ⟨3⟩, target := ⟨"ui.Label"⟩, id := some "status" },
        { key := ⟨4⟩, target := ⟨"ui.Footer"⟩ }]).linearize = .ok l ∧
      l.bindings.map (·.name) = ["$ID0", "$ID1", "$ID2", "status"] ∧
      l.bindings.map (·.node) = [⟨1⟩, ⟨4⟩, ⟨2⟩, ⟨3⟩] := by
  have hsame := assigned_content_is_default (ρ := Name) drawer [_] [_, _, _] _ [_] [_] [⟨2⟩, ⟨3⟩] rfl rfl
    ⟨rfl, by decide, rfl⟩
  exact ⟨_, rfl, hsame.1, by decide, by decide⟩

end Lowering
