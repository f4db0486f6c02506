import Lowering.Proofs.Instruction.Nesting
import Lowering.Proofs.Linearize.Settled
import Lowering.Proofs.Outcome

/-! What a walk adds.

A walk that succeeds gives instructions and goes from one state of progress to another.
`Adds` says how the two belong together: the instructions render nodes of the tree, the
nodes that have become finished are theirs, and so are the new fields, in the order of
the instructions. Walks that come one after the other add what they add together
(`Adds.append`), from which the laws of visiting a node, of descending and of the whole
tree follow one from the other. `linearize_renders` says what the instructions of a tree
are made of. -/
namespace Lowering

/-- The instruction has the identity of its node, or a synthesized one where the node has none. -/
def Instruction.Named (i : Instruction) (n : Node) : Prop :=
  match n.id with
  | some id => i.identity = some ⟨id, true⟩
  | none => ∃ k, i.identity = some ⟨bindingName k, false⟩

/-- It is exposed where the source names the node. -/
theorem Instruction.Named.identity {i : Instruction} {n : Node} (h : i.Named n) :
    ∃ d, i.identity = some d ∧ d.exposed = n.id.isSome := by
  unfold Instruction.Named at h
  cases hid : n.id with
  | some id =>
    rw [hid] at h
    exact ⟨_, h, rfl⟩
  | none =>
    rw [hid] at h
    obtain ⟨k, hk⟩ := h
    exact ⟨_, hk, rfl⟩

/-- The field that the builder assigns the instance to. -/
def Instruction.field? (i : Instruction) : Option BindingField :=
  i.identity.map fun d => ⟨d.name, i.target, d.exposed, i.node⟩

namespace Markup

/-! ### Walks that succeed -/

/-- A walk from `p` gives `a` and ends with `p'`. -/
def Gives {α : Type} (x : Walk α) (p : Progress) (a : α) (p' : Progress) : Prop :=
  x.run p = .ok (a, p')

section
variable {α β : Type} {p p' : Progress}

theorem gives_pure {a b : α} : Gives (pure a) p b p' ↔ b = a ∧ p' = p := by
  rw [Gives, StateT.run_pure]
  constructor
  · intro h
    obtain ⟨rfl, rfl⟩ := Prod.mk.inj (Except.ok.inj h)
    exact ⟨rfl, rfl⟩
  · intro hright
    obtain ⟨rfl, rfl⟩ := hright
    rfl

theorem gives_bind {x : Walk α} {f : α → Walk β} {b : β} :
    Gives (x >>= f) p b p' ↔ ∃ a q, Gives x p a q ∧ Gives (f a) q b p' := by
  unfold Gives
  rw [StateT.run_bind]
  cases hx : x.run p with
  | error e =>
    constructor
    · intro h
      cases h
    · intro hright
      obtain ⟨a, q, h, -⟩ := hright
      cases h
  | ok r =>
    constructor
    · intro h
      exact ⟨r.1, r.2, rfl, h⟩
    · intro hright
      obtain ⟨a, q, h, hf⟩ := hright
      obtain rfl := Except.ok.inj h
      exact hf

theorem gives_map {x : Walk α} {f : α → β} {b : β} :
    Gives (f <$> x) p b p' ↔ ∃ a, Gives x p a p' ∧ b = f a := by
  rw [map_eq_pure_bind, gives_bind]
  constructor
  · intro hright
    obtain ⟨a, q, hx, h⟩ := hright
    obtain ⟨rfl, rfl⟩ := gives_pure.mp h
    exact ⟨a, hx, rfl⟩
  · intro hright
    obtain ⟨a, hx, rfl⟩ := hright
    exact ⟨a, p', hx, gives_pure.mpr ⟨rfl, rfl⟩⟩

theorem not_gives_throw {e : Error} {a : α} : ¬Gives (throw e) p a p' := by
  intro h
  unfold Gives at h
  cases h

/-- What a guard lets through. -/
theorem gives_guard {c : Prop} [Decidable c] {e : Error} {f : β → Walk α} {x : Walk α} {a : α} :
    Gives (if c then throw e >>= f else x) p a p' ↔ ¬c ∧ Gives x p a p' := by
  by_cases h : c
  · rw [if_pos h, gives_bind]
    constructor
    · intro hright
      obtain ⟨b, q, hthrow, -⟩ := hright
      exact absurd hthrow not_gives_throw
    · exact fun hc => absurd h hc.1
  · rw [if_neg h]
    exact ⟨fun hx => ⟨h, hx⟩, fun hx => hx.2⟩

theorem gives_modify {f : Progress → Progress} {u : PUnit} :
    Gives (modify f) p u p' ↔ p' = f p := by
  constructor
  · intro h
    exact (Prod.mk.inj (Except.ok.inj h)).2.symm
  · intro heq
    subst heq
    rfl

theorem gives_get {q : Progress} : Gives get p q p' ↔ q = p ∧ p' = p := by
  constructor
  · intro h
    obtain ⟨rfl, rfl⟩ := Prod.mk.inj (Except.ok.inj h)
    exact ⟨rfl, rfl⟩
  · intro hright
    obtain ⟨rfl, rfl⟩ := hright
    rfl

end

/-! ### What walks add -/

variable (m : Markup)

/-- The instruction is that of a node of the tree below the root. -/
structure Renders (n : Node) (i : Instruction) : Prop where
  node : m.tree.get? i.node = some n
  made : i.MadeFor n
  named : i.Named n
  listeners : i.listeners = m.listenersOf n.key

/-- No node is finished twice, and none that the walk is inside of is finished. -/
structure Apart (path : List NodeKey) (p : Progress) : Prop where
  once : p.finished.Nodup
  open_ : ∀ k ∈ path, k ∉ p.finished

/-- Inside the nodes of a path, a walk goes from `p` to `p'` by making instructions. -/
structure Adds (path : List NodeKey) (p : Progress) (is : List Instruction) (p' : Progress) :
    Prop where
  rendered : ∀ j ∈ is.flatMap Instruction.flatten, ∃ n, m.Renders n j
  finished : p'.finished.Perm ((is.flatMap Instruction.flatten).map (·.node) ++ p.finished)
  bindings : p'.bindings = p.bindings ++ (is.flatMap Instruction.flatten).filterMap (·.field?)
  apart : Apart path p → Apart path p'

variable {m} {path : List NodeKey} {p p' q : Progress}

theorem Adds.nil : m.Adds path p [] p where
  rendered := by simp
  finished := .refl _
  bindings := (List.append_nil _).symm
  apart := id

/-- Walks one after the other. -/
theorem Adds.append {is js : List Instruction} (h : m.Adds path p is q) (h' : m.Adds path q js p') :
    m.Adds path p (is ++ js) p' where
  rendered := by
    intro j hj
    rw [List.flatMap_append] at hj
    rcases List.mem_append.mp hj with hj | hj
    · exact h.rendered j hj
    · exact h'.rendered j hj
  finished := by
    rw [List.flatMap_append, List.map_append, List.append_assoc]
    exact h'.finished.trans ((List.Perm.append_left _ h.finished).trans
      (List.perm_append_comm_assoc ..))
  bindings := by
    rw [h'.bindings, h.bindings, List.flatMap_append, List.filterMap_append, List.append_assoc]
  apart := h'.apart ∘ h.apart

/-- A descent is sound if from a node that is neither open nor finished it makes the
instruction of that node. -/
def Sound (m : Markup) (descend : Descent) : Prop :=
  ∀ path n p i p', m.tree.get? n.key = some n → n.key ∉ path → n.key ∉ p.finished →
    Gives (descend path n) p i p' → i.node = n.key ∧ m.Adds path p [i] p'

variable {descend : Descent}

/-! ### Children -/

theorem child_gives (hd : m.Sound descend) {parent : Node} {key : NodeKey} {i : Instruction}
    (h : Gives (m.child descend path parent key) p i p') : i.node = key ∧ m.Adds path p [i] p' := by
  unfold child at h
  split at h
  next => exact absurd h not_gives_throw
  next n hn =>
    obtain ⟨-, rfl⟩ := Tree.get?_mem hn
    obtain ⟨hopen, h⟩ := gives_guard.mp h
    obtain ⟨q, q', hget, h⟩ := gives_bind.mp h
    obtain ⟨rfl, rfl⟩ := gives_get.mp hget
    obtain ⟨hfinished, h⟩ := gives_guard.mp h
    exact hd _ _ _ _ _ hn hopen hfinished h

theorem children_give {visit : NodeKey → Walk Instruction}
    (hv : ∀ key p i p', Gives (visit key) p i p' → i.node = key ∧ m.Adds path p [i] p')
    {keys : List NodeKey} {is : List Instruction} (h : Gives (keys.mapM visit) p is p') :
    is.map (·.node) = keys ∧ m.Adds path p is p' := by
  induction keys generalizing p is with
  | nil =>
    rw [List.mapM_nil] at h
    obtain ⟨rfl, rfl⟩ := gives_pure.mp h
    exact ⟨rfl, .nil⟩
  | cons key rest ih =>
    rw [List.mapM_cons] at h
    obtain ⟨i, q, hi, h⟩ := gives_bind.mp h
    obtain ⟨is, q', his, h⟩ := gives_bind.mp h
    obtain ⟨rfl, rfl⟩ := gives_pure.mp h
    obtain ⟨hkey, hfirst⟩ := hv key p i q hi
    obtain ⟨hkeys, hrest⟩ := ih his
    exact ⟨by rw [List.map_cons, hkey, hkeys], hfirst.append hrest⟩

theorem value_gives {visit : NodeKey → Walk Instruction}
    (hv : ∀ key p i p', Gives (visit key) p i p' → i.node = key ∧ m.Adds path p [i] p')
    {value : PropertyValue} {made : InstructionValue}
    (h : Gives (instructionValue visit value) p made p') :
    made.source = value ∧ m.Adds path p made.children p' := by
  cases value with
  | literal | expression =>
    obtain ⟨rfl, rfl⟩ := gives_pure.mp h
    exact ⟨rfl, .nil⟩
  | node key =>
    obtain ⟨i, q, hi, h⟩ := gives_bind.mp h
    obtain ⟨rfl, rfl⟩ := gives_pure.mp h
    obtain ⟨rfl, hadds⟩ := hv key p i _ hi
    exact ⟨rfl, hadds⟩
  | nodes keys =>
    obtain ⟨is, q, his, h⟩ := gives_bind.mp h
    obtain ⟨rfl, rfl⟩ := gives_pure.mp h
    obtain ⟨rfl, hadds⟩ := children_give hv his
    exact ⟨rfl, hadds⟩

/-! ### Properties -/

/-- A property as its node has it. -/
def sourceOf (p : String × InstructionValue) : Property := ⟨p.1, p.2.source⟩

/-- A property that stands for content makes nothing, and its node has no content besides;
any other property makes its value. -/
theorem property_gives {visit : NodeKey → Walk Instruction}
    (hv : ∀ key p i p', Gives (visit key) p i p' → i.node = key ∧ m.Adds path p [i] p')
    {isRoot : Bool} {n : Node} {property : Property} {made : Option (String × InstructionValue)}
    (h : Gives (m.property visit isRoot n property) p made p') :
    (isRootContent isRoot property = true → n.content = []) ∧
      made.toList.map sourceOf = [property].filter (!isRootContent isRoot ·) ∧
      m.Adds path p (made.toList.flatMap (·.2.children)) p' := by
  obtain ⟨-, h⟩ := gives_guard.mp h
  obtain ⟨honce, h⟩ := gives_guard.mp h
  cases hcontent : isRootContent isRoot property with
  | true =>
    rw [hcontent, if_pos rfl] at h
    obtain ⟨rfl, rfl⟩ := gives_pure.mp h
    refine ⟨fun _ => ?_, by simp [hcontent], .nil⟩
    unfold isRootContent at hcontent
    split at hcontent
    · simpa [hcontent] using honce
    · cases hcontent
  | false =>
    rw [hcontent, if_neg Bool.false_ne_true] at h
    obtain ⟨value, q, hvalue, h⟩ := gives_bind.mp h
    obtain ⟨rfl, rfl⟩ := gives_pure.mp h
    obtain ⟨hsource, hadds⟩ := value_gives hv hvalue
    refine ⟨nofun, by simp [hcontent, sourceOf, hsource], ?_⟩
    rw [Option.toList_some, List.flatMap_singleton]
    exact hadds

theorem properties_give {visit : NodeKey → Walk Instruction}
    (hv : ∀ key p i p', Gives (visit key) p i p' → i.node = key ∧ m.Adds path p [i] p')
    {isRoot : Bool} {n : Node} {properties : List Property}
    {made : List (Option (String × InstructionValue))}
    (h : Gives (properties.mapM (m.property visit isRoot n)) p made p') :
    (∀ property ∈ properties, isRootContent isRoot property = true → n.content = []) ∧
      (made.filterMap id).map sourceOf = properties.filter (!isRootContent isRoot ·) ∧
      m.Adds path p ((made.filterMap id).flatMap (·.2.children)) p' := by
  induction properties generalizing p made with
  | nil =>
    rw [List.mapM_nil] at h
    obtain ⟨rfl, rfl⟩ := gives_pure.mp h
    exact ⟨by simp, rfl, .nil⟩
  | cons property rest ih =>
    rw [List.mapM_cons] at h
    obtain ⟨first, q, hfirst, h⟩ := gives_bind.mp h
    obtain ⟨others, q', hothers, h⟩ := gives_bind.mp h
    obtain ⟨rfl, rfl⟩ := gives_pure.mp h
    obtain ⟨honce, hsource, hadds⟩ := property_gives hv hfirst
    obtain ⟨honces, hsources, hrest⟩ := ih hothers
    have hmade : (first :: others).filterMap id = first.toList ++ others.filterMap id := by
      cases first <;> rfl
    rw [hmade, List.map_append, List.flatMap_append, hsource, hsources,
      ← List.filter_append, List.singleton_append]
    exact ⟨List.forall_mem_cons.mpr ⟨honce, honces⟩, rfl, hadds.append hrest⟩

/-! ### One node -/

theorem simpleFirst_source (made : List (String × InstructionValue)) :
    (simpleFirst made).map sourceOf = Property.simpleFirst (made.map sourceOf) := by
  rw [simpleFirst, Property.simpleFirst, List.map_append, List.filter_map, List.filter_map]
  simp only [Function.comp_def, sourceOf, InstructionValue.source_isComposite]

theorem simpleFirst_children (made : List (String × InstructionValue)) :
    (simpleFirst made).flatMap (·.2.children) = made.flatMap (·.2.children) :=
  flatMap_reorder (fun _ => InstructionValue.children_of_simple) made

theorem gives_takeId {n : Node} {id : String} {d : Identity} :
    Gives (m.takeId n id) p d p' ↔ ¬(isBindingName id || isHandlerName id || id ∈ p.ids) ∧
      d = ⟨id, true⟩ ∧ p' = { p with ids := id :: p.ids } := by
  simp only [Gives, takeId, StateT.run]
  split
  next htaken => exact ⟨nofun, fun h => absurd htaken h.1⟩
  next hfree =>
    constructor
    · intro h
      obtain ⟨rfl, rfl⟩ := Prod.mk.inj (Except.ok.inj h)
      exact ⟨hfree, rfl, rfl⟩
    · intro hright
      obtain ⟨-, rfl, rfl⟩ := hright
      rfl

theorem gives_makeId {d : Identity} :
    Gives makeId p d p' ↔ d = ⟨bindingName p.next, false⟩ ∧ p' = { p with next := p.next + 1 } := by
  constructor
  · intro h
    obtain ⟨rfl, rfl⟩ := Prod.mk.inj (Except.ok.inj h)
    exact ⟨rfl, rfl⟩
  · intro hright
    obtain ⟨rfl, rfl⟩ := hright
    rfl

/-- The identity of a node is noted as the field of its instruction, and taken where the source
gives it. -/
theorem bind_gives {n : Node} {identity : Identity} (h : Gives (m.bind n) p identity p') :
    (match n.id with
      | some id => identity = ⟨id, true⟩
      | none => ∃ k, identity = ⟨bindingName k, false⟩) ∧
      p'.finished = p.finished ∧
      p'.bindings = p.bindings ++ [⟨identity.name, n.target, identity.exposed, n.key⟩] ∧
      p'.ids = n.id.toList ++ p.ids := by
  unfold bind at h
  cases hid : n.id with
  | some id =>
    rw [hid] at h
    obtain ⟨identity', q, htake, h⟩ := gives_bind.mp h
    obtain ⟨_, q', hmodify, h⟩ := gives_bind.mp h
    obtain ⟨rfl, rfl⟩ := gives_pure.mp h
    obtain rfl := gives_modify.mp hmodify
    obtain ⟨-, rfl, rfl⟩ := gives_takeId.mp htake
    exact ⟨rfl, rfl, rfl, rfl⟩
  | none =>
    rw [hid] at h
    obtain ⟨identity', q, hmake, h⟩ := gives_bind.mp h
    obtain ⟨_, q', hmodify, h⟩ := gives_bind.mp h
    obtain ⟨rfl, rfl⟩ := gives_pure.mp h
    obtain rfl := gives_modify.mp hmodify
    obtain ⟨rfl, rfl⟩ := gives_makeId.mp hmake
    exact ⟨⟨p.next, rfl⟩, rfl, rfl, rfl⟩

variable (m) in
/-- The identity of a node, which the root does without. -/
def identify (isRoot : Bool) (n : Node) : Walk (Option Identity) :=
  if isRoot then pure none else some <$> m.bind n

variable (m) in
/-- Everything inside of a node, when its children are visited. -/
def inside (visit : NodeKey → Walk Instruction) (isRoot : Bool) (n : Node) :
    Walk (List (Option (String × InstructionValue)) × List Instruction) := do
  let properties ← n.properties.mapM (m.property visit isRoot n)
  let content ← (contentOf isRoot n).mapM visit
  return (properties, content)

variable (m) in
/-- The instruction of a node, from its identity and what is inside of it. -/
def instruction (n : Node) (identity : Option Identity)
    (inside : List (Option (String × InstructionValue)) × List Instruction) : Instruction where
  node := n.key
  target := n.target
  identity
  properties := simpleFirst (inside.1.filterMap id)
  styles := n.styles
  listeners := m.listenersOf n.key
  content := inside.2

theorem visit_eq (isRoot : Bool) (above : List NodeKey) (n : Node) :
    m.visit descend isRoot above n = (do
      let identity ← m.identify isRoot n
      let made ← m.inside (m.child descend (n.key :: above) n) isRoot n
      modify fun p => { p with finished := n.key :: p.finished }
      return m.instruction n identity made) := by
  cases isRoot <;> simp [visit, identify, inside, instruction]

/-- A visit gives the node an identity, goes inside and leaves the node finished. -/
theorem visit_gives {isRoot : Bool} {above : List NodeKey} {n : Node} {i : Instruction} :
    Gives (m.visit descend isRoot above n) p i p' ↔
      ∃ identity p₁ made p₂, Gives (m.identify isRoot n) p identity p₁ ∧
        Gives (m.inside (m.child descend (n.key :: above) n) isRoot n) p₁ made p₂ ∧
        i = m.instruction n identity made ∧ p' = { p₂ with finished := n.key :: p₂.finished } := by
  simp only [visit_eq, gives_bind, gives_modify, gives_pure]
  constructor
  · intro hright
    obtain ⟨identity, p₁, hidentity, made, p₂, hinside, _, _, hfinish, rfl, rfl⟩ := hright
    exact ⟨identity, p₁, made, p₂, hidentity, hinside, rfl, hfinish⟩
  · intro hright
    obtain ⟨identity, p₁, made, p₂, hidentity, hinside, rfl, rfl⟩ := hright
    exact ⟨identity, p₁, hidentity, made, p₂, hinside, ⟨⟩, _, rfl, rfl, rfl⟩

/-- Everything about the instruction of a node but its identity. -/
theorem inside_gives (hd : m.Sound descend) {isRoot : Bool} {n : Node} {above : List NodeKey}
    {made : List (Option (String × InstructionValue)) × List Instruction} (identity : Option Identity)
    (h : Gives (m.inside (m.child descend (n.key :: above) n) isRoot n) p made p') :
    (m.instruction n identity made).MadeFor (n.settled isRoot) ∧
      (∀ property ∈ n.properties, isRootContent isRoot property = true → n.content = []) ∧
      m.Adds (n.key :: above) p (m.instruction n identity made).children p' := by
  have hchild : ∀ key p i p', Gives (m.child descend (n.key :: above) n key) p i p' →
      i.node = key ∧ m.Adds (n.key :: above) p [i] p' := fun _ _ _ _ => child_gives hd
  obtain ⟨properties, q, hproperties, h⟩ := gives_bind.mp h
  obtain ⟨content, q', hcontent, h⟩ := gives_bind.mp h
  obtain ⟨rfl, rfl⟩ := gives_pure.mp h
  obtain ⟨honce, hsources, hadds⟩ := properties_give hchild hproperties
  obtain ⟨hkeys, hadds'⟩ := children_give hchild hcontent
  rw [← Node.settled_properties] at hsources
  rw [← Node.settled_content] at hkeys
  refine ⟨⟨rfl, rfl, rfl, ?_, hkeys⟩, honce, ?_⟩
  · exact (simpleFirst_source _).trans (congrArg Property.simpleFirst hsources)
  · rw [Instruction.children, instruction, simpleFirst_children]
    exact hadds.append hadds'

/-- The root has no identity. -/
theorem visit_root_gives (hd : m.Sound descend) {n : Node} {above : List NodeKey} {i : Instruction}
    (h : Gives (m.visit descend true above n) p i p') :
    i.identity = none ∧ i.listeners = m.listenersOf n.key ∧ i.MadeFor (n.settled true) ∧
      (∀ property ∈ n.properties, isRootContent true property = true → n.content = []) ∧
      ∃ q, m.Adds (n.key :: above) p i.children q ∧ p' = { q with finished := n.key :: q.finished } := by
  obtain ⟨identity, _, made, q, hidentity, hinside, rfl, rfl⟩ := visit_gives.mp h
  obtain ⟨rfl, rfl⟩ := gives_pure.mp hidentity
  obtain ⟨hmade, honce, hadds⟩ := inside_gives hd none hinside
  exact ⟨rfl, rfl, hmade, honce, q, hadds, rfl⟩

/-- Visiting a node below the root adds its instruction. -/
theorem visit_sound (hd : m.Sound descend) : m.Sound (m.visit descend false) := by
  intro path n p i p' hn hopen hfinished h
  obtain ⟨_, _, made, q, hidentity, hinside, hi, rfl⟩ := visit_gives.mp h
  obtain ⟨identity, hbind, rfl⟩ := gives_map.mp hidentity
  obtain ⟨hnamed, hfinished', hbindings, -⟩ := bind_gives hbind
  obtain ⟨hmade, -, hadds⟩ := inside_gives hd (some identity) hinside
  have hidentity : i.identity = some identity := hi ▸ rfl
  have hlisteners : i.listeners = m.listenersOf n.key := hi ▸ rfl
  rw [← hi] at hmade hadds
  rw [Node.settled_false] at hmade
  have hlist : [i].flatMap Instruction.flatten = i :: i.children.flatMap Instruction.flatten := by
    rw [List.flatMap_singleton, Instruction.flatten_eq]
  have hfield : i.field? = some ⟨identity.name, n.target, identity.exposed, n.key⟩ := by
    rw [Instruction.field?, hidentity, Option.map_some, hmade.target, hmade.node]
  refine ⟨hmade.node, ⟨?rendered, ?finished, ?bindings, ?apart⟩⟩
  case rendered =>
    rw [hlist]
    refine List.forall_mem_cons.mpr ⟨⟨n, by rw [hmade.node]; exact hn, hmade, ?_, hlisteners⟩,
      hadds.rendered⟩
    rw [Instruction.Named, hidentity]
    cases hid : n.id <;> simp_all
  case finished =>
    rw [hlist, List.map_cons, hmade.node, List.cons_append, ← hfinished']
    exact hadds.finished.cons n.key
  case bindings =>
    rw [hlist, List.filterMap_cons_some hfield, List.append_cons, ← hbindings]
    exact hadds.bindings
  -- A node is finished after all that is below it, where it was on the path.
  case apart =>
    intro hright
    obtain ⟨honce, hpath⟩ := hright
    obtain ⟨honce', hopen'⟩ := hadds.apart ⟨hfinished'.symm ▸ honce,
      List.forall_mem_cons.mpr ⟨hfinished'.symm ▸ hfinished, fun k hk => hfinished'.symm ▸ hpath k hk⟩⟩
    obtain ⟨hself, hothers⟩ := List.forall_mem_cons.mp hopen'
    refine ⟨List.nodup_cons.mpr ⟨hself, honce'⟩, fun k hk hmem => ?_⟩
    rcases List.mem_cons.mp hmem with rfl | hmem
    · exact hopen hk
    · exact hothers k hk hmem

/-- However many levels are left, descending is sound. -/
theorem descend_sound (levels : Nat) : m.Sound (m.descend levels) := by
  induction levels with
  | zero => exact fun _ _ _ _ _ _ _ _ h => absurd h not_gives_throw
  | succ levels ih => exact visit_sound ih

/-! ### The whole tree -/

/-- The instruction is that of the root, which has content in one place alone. -/
structure RendersRoot (m : Markup) (n : Node) (i : Instruction) : Prop where
  node : m.tree.get? m.tree.root = some n
  made : i.MadeFor (n.settled true)
  unnamed : n.id = none
  identity : i.identity = none
  listeners : i.listeners = m.listenersOf n.key
  content : ∀ property ∈ n.properties, isRootContent true property = true → n.content = []

/-- What a linearized tree consists of. -/
structure Rendered (m : Markup) (l : Linearized) : Prop where
  distinct : m.tree.Distinct
  root : ∃ n, m.RendersRoot n l.root
  below : ∀ j ∈ l.root.children.flatMap Instruction.flatten, ∃ n, m.Renders n j
  once : (l.root.flatten.map (·.node)).Nodup
  bindings : l.bindings =
    (l.root.children.flatMap Instruction.flatten).filterMap (·.field?)
  handlers : l.handlers = m.handlers

theorem repeated?_eq_none {seen : List NodeKey} {nodes : List Node} :
    repeated? seen nodes = none ↔ (nodes.map (·.key)).Nodup ∧ ∀ n ∈ nodes, n.key ∉ seen := by
  induction nodes generalizing seen with
  | nil => simp [repeated?]
  | cons n rest ih =>
    rw [repeated?]
    split
    next hseen => simp [hseen]
    next hseen =>
      rw [ih, List.map_cons, List.nodup_cons]
      constructor
      · intro hright
        obtain ⟨hrest, hfresh⟩ := hright
        refine ⟨⟨fun hmem => ?_, hrest⟩, List.forall_mem_cons.mpr
          ⟨hseen, fun k hk hmem => hfresh k hk (List.mem_cons_of_mem _ hmem)⟩⟩
        obtain ⟨k, hk, hkey⟩ := List.mem_map.mp hmem
        exact hfresh k hk (hkey ▸ List.mem_cons_self)
      · intro hright
        obtain ⟨⟨hself, hrest⟩, hfresh⟩ := hright
        refine ⟨hrest, fun k hk hmem => ?_⟩
        rcases List.mem_cons.mp hmem with hkey | hmem
        · exact hself (hkey ▸ List.mem_map_of_mem hk)
        · exact hfresh k (List.mem_cons_of_mem _ hk) hmem

/-- The first check is for a key that is used twice. -/
theorem checked_of_repeated {n : Node} (h : repeated? [] m.tree.nodes = some n) :
    m.checked = .error (m.malformed (.keyUsedTwice n.key) n) := by
  rw [checked, h]
  cases m.tree.get? m.tree.root <;> rfl

theorem checked_of_missing (h : repeated? [] m.tree.nodes = none) (hroot : m.tree.get? m.tree.root = none) :
    m.checked = .error (.danglingNode m.owner m.tree.root m.location) := by
  rw [checked, h, hroot]
  rfl

/-- The last ones are for the identity of the root and for the nodes of the events. -/
theorem checked_of_root {root : Node} (h : repeated? [] m.tree.nodes = none)
    (hroot : m.tree.get? m.tree.root = some root) :
    m.checked = if root.id.isSome then .error (m.malformed .rootWithId root)
      else match m.events.find? fun e => (m.tree.get? e.node).isNone with
        | some e => .error (m.unknownTarget e)
        | none => .ok root := by
  rw [checked, h, hroot]
  dsimp only
  cases m.events.find? fun e => (m.tree.get? e.node).isNone <;> split <;> rfl

/-- The checks let a tree through whose keys differ, whose root is there without an identity, and
whose events are at nodes. -/
theorem checked_eq_ok {root : Node} :
    m.checked = .ok root ↔ m.tree.Distinct ∧ m.tree.get? m.tree.root = some root ∧
      root.id = none ∧ ∀ e ∈ m.events, (m.tree.get? e.node).isSome := by
  have hdistinct : repeated? [] m.tree.nodes = none ↔ m.tree.Distinct :=
    repeated?_eq_none.trans ⟨fun h => h.1, fun h => ⟨h, fun _ _ => List.not_mem_nil⟩⟩
  have htargets : (m.events.find? fun e => (m.tree.get? e.node).isNone) = none ↔
      ∀ e ∈ m.events, (m.tree.get? e.node).isSome := by
    simp [List.find?_eq_none, Option.isSome_iff_ne_none]
  rw [← hdistinct, ← htargets]
  cases hrepeated : repeated? [] m.tree.nodes with
  | some n =>
    rw [checked_of_repeated hrepeated]
    exact ⟨nofun, fun h => nomatch h.1⟩
  | none =>
    cases hroot : m.tree.get? m.tree.root with
    | none =>
      rw [checked_of_missing hrepeated hroot]
      exact ⟨nofun, fun h => nomatch h.2.1⟩
    | some n =>
      rw [checked_of_root hrepeated hroot]
      cases hid : n.id with
      | some id =>
        refine ⟨nofun, fun h => ?_⟩
        obtain ⟨-, hn, hnone, -⟩ := h
        obtain rfl := Option.some.inj hn
        cases hid.symm.trans hnone
      | none =>
        cases m.events.find? fun e => (m.tree.get? e.node).isNone with
        | some e => exact ⟨nofun, fun h => nomatch h.2.2.2⟩
        | none =>
          constructor
          · intro h
            obtain rfl := Except.ok.inj h
            exact ⟨rfl, rfl, hid, rfl⟩
          · intro h
            obtain rfl := Option.some.inj h.2.1
            rfl

/-- What a tree that linearizes becomes. -/
theorem linearize_renders {l : Linearized} (h : m.linearize = .ok l) : m.Rendered l := by
  obtain ⟨root, hchecked, h⟩ := bind_eq_ok.mp h
  obtain ⟨⟨i, p⟩, hvisit, h⟩ := bind_eq_ok.mp h
  obtain ⟨hdistinct, hroot, hid, -⟩ := checked_eq_ok.mp hchecked
  obtain ⟨hidentity, hlisteners, hmade, hcontent, q, hadds, rfl⟩ :=
    visit_root_gives (descend_sound _) hvisit
  obtain rfl : (⟨i, q.bindings, m.handlers⟩ : Linearized) = l := by
    dsimp only at h
    split at h
    · cases h
    · exact Except.ok.inj h
  obtain ⟨honce, hopen⟩ := hadds.apart ⟨List.nodup_nil, fun _ _ => List.not_mem_nil⟩
  have hfinished := hadds.finished
  rw [List.append_nil] at hfinished
  refine ⟨hdistinct, ⟨root, hroot, hmade, hid, hidentity, hlisteners, hcontent⟩, hadds.rendered, ?_,
    hadds.bindings, rfl⟩
  rw [Instruction.flatten_eq, List.map_cons, hmade.node]
  exact List.nodup_cons.mpr ⟨fun hmem => hopen root.key List.mem_cons_self
    (hfinished.mem_iff.mpr hmem), hfinished.nodup_iff.mp honce⟩

end Markup
end Lowering
