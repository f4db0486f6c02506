import Lowering.Proofs.Linearize.Descent
import Lowering.Proofs.Linearize.Laws
import Lowering.Proofs.Linearize.Standing

/-! What a walk complains about.

A part of a walk reports truly if, from where a condition holds of the progress, it ends where
another one does or complains of what is so (`Reports`). Inside of a node the condition is where the
walk stands with the children that it has passed (`Passes`), and what passes children is put
together the way walks are. By induction on the levels that are left, descending to a child passes
it, so that every failure of a tree whose keys differ says what is so (`failures_justified`). -/
namespace Lowering

namespace Markup

variable {α β : Type} {m : Markup} {P Q R : Progress → Prop}

/-! ### Steps -/

variable (m) in
/-- From where `P` holds the walk ends where `Q` does, or it fails with something that is so. -/
structure Reports (P : Progress → Prop) (x : Walk α) (Q : Progress → Prop) : Prop where
  gives : ∀ p a q, P p → Gives x p a q → Q q
  fails : ∀ p e, P p → x.run p = .error e → m.Justified e

namespace Reports

theorem pure {a : α} : m.Reports P (pure a) P where
  gives := by
    intro p b q hp h
    obtain ⟨-, rfl⟩ := gives_pure.mp h
    exact hp
  fails := by
    intro p e _ h
    cases h

theorem bind {x : Walk α} {f : α → Walk β} (hx : m.Reports P x Q) (hf : ∀ a, m.Reports Q (f a) R) :
    m.Reports P (x >>= f) R where
  gives := by
    intro p b r hp h
    obtain ⟨a, q, hfirst, hrest⟩ := gives_bind.mp h
    exact (hf a).gives q b r (hx.gives p a q hp hfirst) hrest
  fails := by
    intro p e hp h
    rw [StateT.run_bind] at h
    obtain h | ⟨⟨a, q⟩, hfirst, hrest⟩ := bind_eq_error.mp h
    · exact hx.fails p e hp h
    · exact (hf a).fails q e (hx.gives p a q hp hfirst) hrest

/-- What follows knows the progress that is read. -/
theorem get {f : Progress → Walk α} (hf : ∀ q, m.Reports (fun p => P p ∧ p = q) (f q) Q) :
    m.Reports P (MonadState.get >>= f) Q where
  gives := by
    intro p a q hp h
    obtain ⟨_, _, hget, hrest⟩ := gives_bind.mp h
    obtain ⟨rfl, rfl⟩ := gives_get.mp hget
    exact (hf _).gives _ a q ⟨hp, rfl⟩ hrest
  fails := by
    intro p e hp h
    exact (hf p).fails p e ⟨hp, rfl⟩ h

theorem weaken {x : Walk α} (hx : m.Reports P x Q) {P' : Progress → Prop} (h : ∀ p, P' p → P p) :
    m.Reports P' x Q where
  gives p a q hp := hx.gives p a q (h p hp)
  fails p e hp := hx.fails p e (h p hp)

theorem throw {e : Error} (he : ∀ p, P p → m.Justified e) : m.Reports P (throw e : Walk α) Q where
  gives := by
    intro p a q _ h
    exact absurd h not_gives_throw
  fails := by
    intro p e' hp h
    obtain rfl := Except.error.inj h
    exact he p hp

/-- What a guard throws is so where it is not passed. -/
theorem guard {c : Prop} [Decidable c] {e : Error} {f : β → Walk α} {x : Walk α}
    (he : c → ∀ p, P p → m.Justified e) (hx : ¬c → m.Reports P x Q) :
    m.Reports P (if c then MonadExcept.throw e >>= f else x) Q := by
  by_cases hc : c
  · rw [if_pos hc]
    exact Reports.throw (he hc)
  · rw [if_neg hc]
    exact hx hc

end Reports

/-! ### Parts of a walk inside of a node -/

/-- Of children that are passed in order, the walk passes the next ones, wherever they are. -/
def Passes (m : Markup) (standing : List NodeKey → Progress → Prop) (children : List NodeKey) (x : Walk α)
    (keys : List NodeKey) : Prop :=
  ∀ before, before ++ keys <+: children → m.Reports (standing before) x (standing (before ++ keys))

section
variable {standing : List NodeKey → Progress → Prop} {children keys keys' : List NodeKey}

namespace Passes

theorem pure {a : α} : m.Passes standing children (pure a) [] := by
  intro before _
  rw [List.append_nil]
  exact .pure

theorem bind {x : Walk α} {f : α → Walk β} (hx : m.Passes standing children x keys)
    (hf : ∀ a, m.Passes standing children (f a) keys') :
    m.Passes standing children (x >>= f) (keys ++ keys') := by
  intro before hfront
  rw [← List.append_assoc] at hfront ⊢
  exact (hx before ((List.prefix_append _ _).trans hfront)).bind fun a => hf a _ hfront

/-- A last step that changes no state passes nothing more. -/
theorem andThen {x : Walk α} {f : α → β} (hx : m.Passes standing children x keys) :
    m.Passes standing children (x >>= fun a => Pure.pure (f a)) keys := by
  simpa using hx.bind fun _ => .pure

theorem guard {c : Prop} [Decidable c] {e : Error} {f : β → Walk α} {x : Walk α} (he : c → m.Justified e)
    (hx : m.Passes standing children x keys) :
    m.Passes standing children (if c then throw e >>= f else x) keys := fun before hfront =>
  .guard (fun hc _ _ => he hc) fun _ => hx before hfront

theorem mapM {f : α → Walk β} {keys : α → List NodeKey} {as : List α}
    (hf : ∀ a ∈ as, m.Passes standing children (f a) (keys a)) :
    m.Passes standing children (as.mapM f) (as.flatMap keys) := by
  induction as with
  | nil =>
    rw [List.mapM_nil]
    exact .pure
  | cons a rest ih =>
    obtain ⟨ha, hrest⟩ := List.forall_mem_cons.mp hf
    rw [List.mapM_cons, List.flatMap_cons]
    exact ha.bind fun _ => (ih hrest).andThen

variable {visit : NodeKey → Walk Instruction} (hv : ∀ key, m.Passes standing children (visit key) [key])
include hv

theorem all (keys : List NodeKey) : m.Passes standing children (keys.mapM visit) keys := by
  simpa using mapM fun key (_ : key ∈ keys) => hv key

theorem value (value : PropertyValue) :
    m.Passes standing children (instructionValue visit value) value.children := by
  cases value with
  | literal | expression => exact .pure
  | node key => exact (hv key).andThen
  | nodes keys => exact (Passes.all hv keys).andThen

section
variable {n : Node} {isRoot : Bool} (hn : m.tree.Reached n) (hroot : isRoot → m.tree.get? m.tree.root = some n)
include hn hroot

theorem property {property : Property} (hp : property ∈ n.properties) :
    m.Passes standing children (m.property visit isRoot n property) (visited isRoot property) := by
  refine .guard (fun hreserved => ?_) (.guard (fun htwice => ?_) ?_)
  · exact ⟨n, hn, property, hp, rfl, Property.reserved_iff.mp hreserved⟩
  · simp only [Bool.and_eq_true, decide_eq_true_eq, Bool.not_eq_true', List.isEmpty_eq_false_iff] at htwice
    obtain ⟨⟨hisRoot, hname⟩, hcontent⟩ := htwice
    exact ⟨hname, n, hroot hisRoot, hcontent, property, hp, rfl⟩
  · rw [visited]
    split
    · exact .pure
    · exact (Passes.value hv property.value).andThen

/-- Inside of a node the walk passes the children of the node. -/
theorem inside : m.Passes standing children (m.inside visit isRoot n) (n.settled isRoot).children := by
  rw [settled_children]
  exact (mapM fun _ => Passes.property hv hn hroot).bind fun _ => (Passes.all hv _).andThen

end

end Passes

end

/-! ### One node -/

variable {n : Node} {above outer : List NodeKey} {isRoot : Bool}

/-- A node is entered with its identity, if it has one that is not taken. -/
theorem identify_reports (hn : m.Entered n above outer) :
    m.Reports (fun p => m.Standing above outer p ∧ n.key ∉ p.finished) (m.identify isRoot n)
      (m.Standing (n.key :: above) outer) := by
  have hbind : m.Reports (fun p => m.Standing above outer p ∧ n.key ∉ p.finished) (m.bind n)
      (m.Standing (n.key :: above) outer) := by
    constructor
    · intro p identity q hp h
      obtain ⟨-, hfinished, -, hids⟩ := bind_gives h
      refine hp.1.enter hn.held hp.2 hfinished fun id hid => ?_
      rw [hids] at hid
      exact (List.mem_append.mp hid).imp_left Option.mem_toList.mp
    · intro p e hp h
      obtain ⟨id, hid, htaken, rfl⟩ := bind_fails h
      exact justified_duplicate hn hp.1 hp.2 hid htaken
  cases isRoot with
  | true =>
    constructor
    · intro p d q hp h
      obtain ⟨-, rfl⟩ := gives_pure.mp h
      exact hp.1.enter hn.held hp.2 rfl fun id => .inr
    · intro p e _ h
      cases h
  | false =>
    show m.Reports _ (some <$> m.bind n) _
    rw [map_eq_pure_bind]
    exact hbind.bind fun _ => .pure

/-- A node is visited by passing its children, wherever that leads. -/
theorem visit_reports {descend : Descent} (hn : m.Entered n above outer)
    (hroot : isRoot → m.tree.get? m.tree.root = some n)
    (hv : ∀ key, m.Passes (fun before => m.Standing (n.key :: above) (outer ++ before))
      (n.settled isRoot).children (m.child descend (n.key :: above) n key) [key])
    (hfinish : ∀ p, m.Standing (n.key :: above) (outer ++ (n.settled isRoot).children) p →
      Q { p with finished := n.key :: p.finished }) :
    m.Reports (fun p => m.Standing above outer p ∧ n.key ∉ p.finished) (m.visit descend isRoot above n) Q := by
  have hinside : m.Reports (m.Standing (n.key :: above) (outer ++ []))
      (m.inside (m.child descend (n.key :: above) n) isRoot n)
      (m.Standing (n.key :: above) (outer ++ (n.settled isRoot).children)) :=
    Passes.inside hv hn.here hroot [] (List.prefix_refl _)
  rw [List.append_nil] at hinside
  rw [visit_eq]
  refine (identify_reports hn).bind fun _ => hinside.bind fun _ => .bind (Q := Q) ?_ fun _ => .pure
  constructor
  · intro p u q hp h
    obtain rfl := gives_modify.mp h
    exact hfinish p hp
  · intro p e _ h
    cases h

/-! ### Descending -/

/-- A child is passed by descending to it, unless the walk is inside of it or has finished it. -/
theorem child_passes (isRoot : Bool) (ht : m.tree.Distinct) (hn : m.Entered n above outer) {descend : Descent}
    (hd : ∀ n' outer', m.Entered n' (n.key :: above) outer' →
      m.Reports (fun p => m.Standing (n.key :: above) outer' p ∧ n'.key ∉ p.finished)
        (descend (n.key :: above) n') (m.Standing (n.key :: above) (outer' ++ [n'.key]))) (key : NodeKey) :
    m.Passes (fun before => m.Standing (n.key :: above) (outer ++ before)) (n.settled isRoot).children
      (m.child descend (n.key :: above) n key) [key] := by
  intro before hfront
  have hchild {k : NodeKey} (hk : k ∈ before ++ [key]) : m.tree.Child n.key k :=
    (Tree.child_iff ht hn.held).mpr (Node.settled_children_subset (hfront.subset hk))
  have hlink := hchild (List.mem_append_right _ List.mem_cons_self)
  show m.Reports (m.Standing (n.key :: above) (outer ++ before)) _
    (m.Standing (n.key :: above) (outer ++ (before ++ [key])))
  rw [← List.append_assoc]
  unfold Markup.child
  split
  next hnone => exact .throw fun _ _ => justified_dangling hn ((Tree.child_iff ht hn.held).mp hlink) hnone
  next n' hn' =>
    obtain ⟨-, rfl⟩ := Tree.get?_mem hn'
    refine .guard (fun hmem _ _ => justified_cyclic hn hlink hmem) fun hopen => .get fun q => ?_
    refine .guard (fun hmem p hp => ?_) fun hfresh => ?_
    · obtain ⟨hp, rfl⟩ := hp
      exact justified_shared ht hn hp hfront hmem
    · have hentered := hn.child hn' hlink hopen fun k hk => hchild (List.mem_append_left _ hk)
      refine (hd n' _ hentered).weaken fun p hp => ?_
      obtain ⟨hp, rfl⟩ := hp
      exact ⟨hp, hfresh⟩

/-- However many levels are left, descending to a node finishes it. -/
theorem descend_reports (ht : m.tree.Distinct) (levels : Nat) (hn : m.Entered n above outer)
    (hlevels : above.length + levels = nestingLevels + 1) :
    m.Reports (fun p => m.Standing above outer p ∧ n.key ∉ p.finished) (m.descend levels above n)
      (m.Standing above (outer ++ [n.key])) := by
  induction levels generalizing n above outer with
  | zero => exact .throw fun _ _ => justified_nestedTooDeep hn hlevels
  | succ levels ih =>
    have hdeeper : (n.key :: above).length + levels = nestingLevels + 1 := by
      rw [List.length_cons, ← hlevels, Nat.add_assoc, Nat.add_comm 1]
    refine visit_reports hn nofun (child_passes false ht hn fun n' outer' hn' => ih hn' hdeeper) fun p hp => ?_
    rw [Node.settled_false] at hp
    exact hp.finish ht hn

/-! ### The whole tree -/

theorem checked_justified (ht : m.tree.Distinct) {e : Error} (h : m.checked = .error e) : m.Justified e := by
  obtain ⟨hrepeated, -⟩ | ⟨hnone, rfl⟩ | ⟨root, hroot, hid, rfl⟩ | ⟨event, hevent, hnone, rfl⟩ := checked_fails h
  · exact absurd ht hrepeated
  · exact ⟨Tree.not_mem_keys hnone, .inl rfl⟩
  · exact ⟨root, hroot, hid⟩
  · exact ⟨⟨event, hevent, rfl, rfl⟩, .inl hnone⟩

/-- The walk from the root finishes what the settled tree unfolds to. -/
theorem finished_iff_unfolds {root : Node} {i : Instruction} {q : Progress} (hroot : m.checked = .ok root)
    (h : Gives (m.visit (m.descend nestingLevels) true [] root) {} i q) (key : NodeKey) :
    key ∈ q.finished ↔ m.tree.settled.Unfolds key := by
  obtain ⟨-, hheld, hid, -⟩ := checked_eq_ok.mp hroot
  obtain ⟨-, hkey⟩ := Tree.get?_mem hheld
  rw [← hkey] at hheld
  have hsettled : decide (root.key = m.tree.root) = true := decide_eq_true hkey
  have hunnamed : true = true → root.id = none := fun _ => hid
  have hv := child_covers nestingLevels (hkey ▸ List.mem_cons_self : m.tree.root ∈ [root.key]) root
  have hmarks := visit_marks hheld hunnamed hv h
  obtain ⟨⟨-, hlevels⟩, -⟩ := (visit_succeeds hheld hunnamed hv List.not_mem_nil).mp ⟨i, q, h⟩
  rw [← settled_level hheld hsettled, hkey] at hlevels
  have hunfolds : m.tree.settled.Unfolds key ↔
      key ∈ m.tree.settled.unfold (nestingLevels + 1) m.tree.root := Tree.unfolds_iff_mem hlevels
  rw [hunfolds, ← hkey, settled_unfold hheld hsettled, hmarks.finished, or_iff_left List.not_mem_nil]

end Markup

/-- **Where the keys of a tree differ, a failure to linearize it says what is so. A cyclic node is
reached from the root and from itself along child links. A shared one is a child at two positions of
nodes that are reached, and is not reached from itself. A dangling key has no node and is that of
the root or a child of a node that is reached. Where nodes are nested too deep, a way through
different nodes takes more links from the root than there are levels. An identity that is refused
looks synthesized or is that of two nodes which are reached. What a failure says of a property, of
the root or of the target of an event is so as well, and there are no others.** -/
theorem failures_justified (m : Markup) (ht : m.tree.Distinct) (e : Error) (h : m.linearize = .error e) :
    m.Justified e := by
  obtain h | ⟨root, hroot, h⟩ := Markup.linearize_fails h
  · exact Markup.checked_justified ht h
  obtain ⟨-, hheld, -, -⟩ := Markup.checked_eq_ok.mp hroot
  obtain h | ⟨i, q, hvisit, event, hevent, hunfinished, rfl⟩ := h
  · have hentered : m.Entered root [] [] := .root hheld
    have hlevels : [root.key].length + Markup.nestingLevels = Markup.nestingLevels + 1 := Nat.add_comm ..
    have hpasses := Markup.child_passes true ht hentered fun n' outer' hn' =>
      Markup.descend_reports ht Markup.nestingLevels hn' hlevels
    have hvisit := Markup.visit_reports (Q := fun _ => True) hentered (fun _ => hheld) hpasses fun _ _ => trivial
    exact hvisit.fails {} e ⟨.start, List.not_mem_nil⟩ h
  · exact ⟨⟨event, hevent, rfl, rfl⟩, .inr (mt (Markup.finished_iff_unfolds hroot hvisit _).mpr hunfinished)⟩

/-- A group in a group that holds the outer one again, beside a label that is there once. -/
def backEdge : Markup where
  owner := ⟨"app.Main"⟩
  tree := {
    root := ⟨0⟩
    nodes := [
      { key := ⟨0⟩, target := ⟨"ui.Application"⟩, content := [⟨3⟩, ⟨1⟩] },
      { key := ⟨1⟩, target := ⟨"ui.Group"⟩, content := [⟨2⟩] },
      { key := ⟨2⟩, target := ⟨"ui.Group"⟩, content := [⟨1⟩] },
      { key := ⟨3⟩, target := ⟨"ui.Label"⟩ }] }

/-- The outer group is refused for the cycle that it is on, not for its two parents. -/
theorem backEdge_justified :
    backEdge.linearize = .error (.cyclicTree ⟨"app.Main"⟩ ⟨1⟩ ⟨"ui.Group"⟩ none) ∧
      backEdge.tree.LeadsTo ⟨0⟩ ⟨1⟩ ∧ Relation.TransGen backEdge.tree.Child ⟨1⟩ ⟨1⟩ := by
  have hdistinct : (backEdge.tree.nodes.map (·.key)).Nodup := by decide
  exact ⟨rfl, failures_justified backEdge hdistinct _ rfl⟩

end Lowering
