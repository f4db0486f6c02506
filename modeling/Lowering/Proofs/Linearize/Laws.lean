import Lowering.Proofs.Linearize.Walk

/-! Laws of walks.

A walk over a tree is put together from a few steps: it reads its progress, gives a node an
identity, finishes a node, or complains about the tree. A property of walks that each of
these steps has, and that steps one after the other keep, is a law; and a law holds of every
descent and so of the whole walk (`Law.visit_root`). What the progress of a walk is like at
its end, and what a walk can complain about, are read off such laws. What comes before the
walk and after it can fail as well (`linearize_fails`). -/
namespace Lowering.Markup

/-- A property of walks that holds of every step and of steps one after the other. -/
structure Law (m : Markup) (P : {α : Type} → Walk α → Prop) : Prop where
  pure : ∀ {α : Type} (a : α), P (pure a)
  bind : ∀ {α β : Type} {x : Walk α} {f : α → Walk β}, P x → (∀ a, P (f a)) → P (x >>= f)
  /-- No complaint of a walk is about another stage. -/
  throw : ∀ {α : Type} {e : Error}, (∀ owner reason, e ≠ .internal owner reason) →
    P (throw e : Walk α)
  get : P get
  finish : ∀ key, P (modify fun p => { p with finished := key :: p.finished })
  identity : ∀ n, P (m.bind n)

namespace Law

variable {m : Markup} {P : {α : Type} → Walk α → Prop} {α β : Type}

theorem map (h : m.Law P) {x : Walk α} (hx : P x) (f : α → β) : P (f <$> x) := by
  rw [map_eq_pure_bind]
  exact h.bind hx fun a => h.pure (f a)

/-- What a guard throws is all that it adds. -/
theorem guard (h : m.Law P) {c : Prop} [Decidable c] {e : Error} {f : β → Walk α} {x : Walk α}
    (he : ∀ owner reason, e ≠ .internal owner reason) (hx : P x) :
    P (if c then MonadExcept.throw e >>= f else x) := by
  by_cases hc : c
  · rw [if_pos hc]
    exact h.throw he
  · rw [if_neg hc]
    exact hx

theorem mapM (h : m.Law P) {f : α → Walk β} (hf : ∀ a, P (f a)) (as : List α) : P (as.mapM f) := by
  induction as with
  | nil =>
    rw [List.mapM_nil]
    exact h.pure []
  | cons a rest ih =>
    rw [List.mapM_cons]
    exact h.bind (hf a) fun b => h.bind ih fun bs => h.pure (b :: bs)

variable {deeper : Descent}

theorem child (h : m.Law P) (hd : ∀ path n, P (deeper path n)) (path : List NodeKey) (parent : Node)
    (key : NodeKey) : P (m.child deeper path parent key) := by
  unfold Markup.child
  split
  next => exact h.throw nofun
  next n _ => exact h.guard nofun (h.bind h.get fun _ => h.guard nofun (hd path n))

theorem value (h : m.Law P) {visit : NodeKey → Walk Instruction} (hv : ∀ key, P (visit key))
    (value : PropertyValue) : P (instructionValue visit value) := by
  cases value with
  | literal v => exact h.pure _
  | expression v => exact h.pure _
  | node key => exact h.bind (hv key) fun i => h.pure _
  | nodes keys => exact h.bind (h.mapM hv keys) fun is => h.pure _

theorem property (h : m.Law P) {visit : NodeKey → Walk Instruction} (hv : ∀ key, P (visit key))
    (isRoot : Bool) (n : Node) (p : Property) : P (m.property visit isRoot n p) := by
  refine h.guard nofun (h.guard nofun ?_)
  by_cases hcontent : isRootContent isRoot p = true
  · rw [if_pos hcontent]
    exact h.pure none
  · rw [if_neg hcontent]
    exact h.bind (h.value hv p.value) fun value => h.pure _

theorem visit (h : m.Law P) (hd : ∀ path n, P (deeper path n)) (isRoot : Bool)
    (above : List NodeKey) (n : Node) : P (m.visit deeper isRoot above n) := by
  have hchild : ∀ key, P (m.child deeper (n.key :: above) n key) :=
    fun key => h.child hd (n.key :: above) n key
  have hidentify : P (m.identify isRoot n) := by
    cases isRoot with
    | true => exact h.pure none
    | false => exact h.map (h.identity n) some
  have hinside : P (m.inside (m.child deeper (n.key :: above) n) isRoot n) :=
    h.bind (h.mapM (h.property hchild isRoot n) _) fun _ =>
      h.bind (h.mapM hchild _) fun _ => h.pure _
  rw [visit_eq]
  exact h.bind hidentify fun _ => h.bind hinside fun _ => h.bind (h.finish n.key) fun _ => h.pure _

/-- However many levels are left, the law holds of descending. -/
theorem descend (h : m.Law P) (levels : Nat) (path : List NodeKey) (n : Node) :
    P (m.descend levels path n) := by
  induction levels generalizing path n with
  | zero => exact h.throw nofun
  | succ levels ih => exact h.visit ih false path n

/-- The law holds of the walk over the whole tree. -/
theorem visit_root (h : m.Law P) (root : Node) :
    P (m.visit (m.descend nestingLevels) true [] root) :=
  h.visit (h.descend nestingLevels) true [] root

end Law

/-! ### Where a tree fails -/

variable {m : Markup} {e : Error}

/-- A node that cannot be bound has an identity that looks synthesized or is taken. -/
theorem bind_fails {n : Node} {p : Progress} (h : (m.bind n).run p = .error e) :
    ∃ id, n.id = some id ∧ (isBindingName id || isHandlerName id || id ∈ p.ids) ∧
      e = .duplicateIdentity m.owner id (m.placeOf n) := by
  unfold bind at h
  cases hid : n.id with
  | none =>
    rw [hid] at h
    cases h
  | some id =>
    simp only [hid, StateT.run_bind] at h
    obtain h | ⟨r, -, h⟩ := bind_eq_error.mp h
    · simp only [takeId, StateT.run] at h
      split at h
      next htaken => exact ⟨id, rfl, htaken, (Except.error.inj h).symm⟩
      next => cases h
    · cases h

/-- The checks refuse a key that is used twice, a root that is missing or has an identity, and an
event at no node. -/
theorem checked_fails (h : m.checked = .error e) :
    (¬m.tree.Distinct ∧ ∃ n, e = m.malformed (.keyUsedTwice n.key) n) ∨
      (m.tree.get? m.tree.root = none ∧ e = .danglingNode m.owner m.tree.root m.location) ∨
      (∃ root, m.tree.get? m.tree.root = some root ∧ root.id.isSome ∧ e = m.malformed .rootWithId root) ∨
      ∃ event ∈ m.events, m.tree.get? event.node = none ∧ e = m.unknownTarget event := by
  cases hrepeated : repeated? [] m.tree.nodes with
  | some n =>
    rw [checked_of_repeated hrepeated] at h
    refine .inl ⟨fun hdistinct => ?_, n, (Except.error.inj h).symm⟩
    have hnone := repeated?_eq_none.mpr ⟨hdistinct, fun _ _ => List.not_mem_nil⟩
    cases hrepeated.symm.trans hnone
  | none =>
    cases hroot : m.tree.get? m.tree.root with
    | none =>
      rw [checked_of_missing hrepeated hroot] at h
      exact .inr (.inl ⟨rfl, (Except.error.inj h).symm⟩)
    | some root =>
      rw [checked_of_root hrepeated hroot] at h
      split at h
      next hid => exact .inr (.inr (.inl ⟨root, rfl, hid, (Except.error.inj h).symm⟩))
      next =>
        split at h
        next event hevent =>
          have hmissing : m.tree.get? event.node = none := by simpa using List.find?_some hevent
          exact .inr (.inr (.inr
            ⟨event, List.mem_of_find?_eq_some hevent, hmissing, (Except.error.inj h).symm⟩))
        next => cases h

/-- A tree fails its checks, or on the walk from the root, or for an event at a node that the walk
does not finish. -/
theorem linearize_fails (h : m.linearize = .error e) :
    m.checked = .error e ∨ ∃ root, m.checked = .ok root ∧
      ((m.visit (m.descend nestingLevels) true [] root).run {} = .error e ∨
        ∃ i q, Gives (m.visit (m.descend nestingLevels) true [] root) {} i q ∧
          ∃ event ∈ m.events, event.node ∉ q.finished ∧ e = m.unknownTarget event) := by
  obtain h | ⟨root, hroot, h⟩ := bind_eq_error.mp h
  · exact .inl h
  obtain h | ⟨⟨i, q⟩, hvisit, h⟩ := bind_eq_error.mp h
  · exact .inr ⟨root, hroot, .inl h⟩
  dsimp only at h
  split at h
  next event hevent =>
    have hunfinished : event.node ∉ q.finished := by simpa using List.find?_some hevent
    exact .inr ⟨root, hroot, .inr ⟨i, q, hvisit, event, List.mem_of_find?_eq_some hevent, hunfinished,
      (Except.error.inj h).symm⟩⟩
  next => cases h

end Lowering.Markup
