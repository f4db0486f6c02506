import Lowering.Proofs.Instruction.Listeners
import Lowering.Proofs.Linearize.Numbering
import Lowering.Proofs.Output.Plan

/-! How events reach their handlers.

The events of a class are grouped by the nodes they are at, and each group becomes the listeners
of one instruction. Every event is at a node that has an instruction, and no node has two, so that
the groups hold each event once (`flatMap_filter_perm`). The handlers are therefore named once
each in the encoded root, where they belong, and the methods that the class declares for them
answer to the same names (`events_wired`). -/
namespace Lowering

/-- Grouped by distinct keys that cover them all, items are listed once each. -/
theorem flatMap_filter_perm {α κ : Type} [DecidableEq κ] (key : α → κ) {keys : List κ}
    (hkeys : keys.Nodup) {items : List α} (hcovered : ∀ a ∈ items, key a ∈ keys) :
    (keys.flatMap fun k => items.filter (key · = k)).Perm items := by
  induction keys generalizing items with
  | nil =>
    obtain rfl : items = [] := List.eq_nil_iff_forall_not_mem.mpr fun a ha =>
      List.not_mem_nil (hcovered a ha)
    exact .refl _
  | cons k rest ih =>
    obtain ⟨hfresh, hrest⟩ := List.nodup_cons.mp hkeys
    have hothers : ∀ a ∈ items.filter (fun a => !decide (key a = k)), key a ∈ rest := by
      intro a ha
      obtain ⟨ha, hkey⟩ := List.mem_filter.mp ha
      rcases List.mem_cons.mp (hcovered a ha) with hk | hk
      · simp [hk] at hkey
      · exact hk
    have hgroups : (rest.flatMap fun k' => (items.filter (fun a => !decide (key a = k))).filter (key · = k')) =
        rest.flatMap fun k' => items.filter (key · = k') := by
      refine List.flatMap_congr fun k' hk' => ?_
      rw [List.filter_filter]
      refine List.filter_congr fun a _ => ?_
      by_cases ha : key a = k'
      · have hne : k' ≠ k := fun hk => hfresh (hk ▸ hk')
        simp [ha, hne]
      · simp [ha]
    rw [List.flatMap_cons, ← hgroups]
    exact ((ih hrest hothers).append_left _).trans (List.filter_append_perm _ _)

namespace Markup

variable {m : Markup} {l : Linearized}

/-- What an event is at has an instruction. -/
theorem mem_nodes_of_event (h : m.linearize = .ok l) :
    ∀ e ∈ m.events, e.node ∈ l.root.flatten.map (·.node) := by
  obtain ⟨root, -, h⟩ := bind_eq_ok.mp h
  obtain ⟨⟨i, p⟩, hvisit, h⟩ := bind_eq_ok.mp h
  obtain ⟨-, -, hmade, -, q, hadds, rfl⟩ := visit_root_gives (descend_sound _) hvisit
  dsimp only at h
  cases hfind : m.events.find? fun e => e.node ∉ root.key :: q.finished with
  | some e =>
    rw [hfind] at h
    cases h
  | none =>
    rw [hfind] at h
    obtain rfl := Except.ok.inj h
    intro e he
    have hfinished : e.node ∈ root.key :: q.finished := by
      by_contra hnot
      simpa [hnot] using List.find?_eq_none.mp hfind e he
    rw [Instruction.flatten_eq, List.map_cons, hmade.node]
    have hnodes := (hadds.finished.cons root.key).mem_iff.mp hfinished
    rwa [List.append_nil] at hnodes

namespace Rendered

/-- Every instruction has the listeners of its node. -/
theorem listeners (h : m.Rendered l) {i : Instruction} (hi : i ∈ l.root.flatten) :
    i.listeners = m.listenersOf i.node := by
  rw [Instruction.flatten_eq] at hi
  rcases List.mem_cons.mp hi with rfl | hi
  · obtain ⟨r, hr⟩ := h.root
    rw [hr.listeners, hr.made.node]
    rfl
  · obtain ⟨n, hn⟩ := h.below i hi
    rw [hn.listeners, hn.made.node]

/-- The listeners of all instructions are the events, each once. -/
theorem listeners_perm (h : m.Rendered l)
    (hevents : ∀ e ∈ m.events, e.node ∈ l.root.flatten.map (·.node)) :
    (l.root.flatten.flatMap fun i => i.listeners.map (·.handler)).Perm
      ((List.range m.events.length).map handlerName) := by
  have hgroups : (l.root.flatten.flatMap fun i => i.listeners.map (·.handler)) =
      ((l.root.flatten.map (·.node)).flatMap fun key =>
        m.events.zipIdx.filter (·.1.node = key)).map fun (e : EventBinding × Nat) => handlerName e.2 := by
    rw [List.flatMap_map, List.map_flatMap]
    refine List.flatMap_congr fun i hi => ?_
    rw [h.listeners hi, listenersOf, List.map_map]
    rfl
  have hcovered : ∀ e ∈ m.events.zipIdx, e.1.node ∈ l.root.flatten.map (·.node) :=
    fun e he => hevents e.1 (List.fst_mem_of_mem_zipIdx he)
  rw [hgroups, List.range_eq_range', ← List.zipIdx_map_snd, List.map_map]
  exact (flatMap_filter_perm (fun (e : EventBinding × Nat) => e.1.node) h.once hcovered).map _

end Rendered

end Markup

namespace ClassDecl

variable (c : ClassDecl)

/-- The events at a node and the names of their handlers, in the order of the events. -/
def heardAt (key : NodeKey) : List (String × String) :=
  (c.events.zipIdx.filter fun (e, _) => e.node = key).map fun (e, i) => (e.event, handlerName i)

end ClassDecl

/-- **The handlers are made one for each event and numbered in their order. The encoded root names
each of them once and no other; reading it gives every instruction the events at its node with
their handlers, in the order of the events; and what an event is at has one instruction.** -/
theorem events_wired {ρ : Type} (nameOf : Name → ρ) (c : ClassDecl) (l : Linearized)
    (h : c.linearize = .ok (some l)) :
    c.eventHandlers (some l) = .ok c.numberedHandlers ∧
      ((handlersIn (l.root.encodeRoot nameOf)).Perm ((List.range c.events.length).map handlerName) ∧
        (handlersIn (l.root.encodeRoot nameOf)).Nodup) ∧
      (∃ o, Outline.ofRootTokens (l.root.encodeRoot nameOf) = .ok o ∧
        o.flatten.map (·.listeners) = l.root.flatten.map fun i => c.heardAt i.node) ∧
      (l.root.flatten.map (·.node)).Nodup ∧
      ∀ e ∈ c.events, e.node ∈ l.root.flatten.map (·.node) := by
  obtain ⟨m, hm, hl⟩ := ClassDecl.markup_of_linearize h
  obtain ⟨tree, htree, rfl⟩ := Option.map_eq_some_iff.mp hm
  have hrendered := Markup.linearize_renders hl
  have hevents := Markup.mem_nodes_of_event hl
  have hperm := (Instruction.handlersIn_encodeRoot nameOf l.root).trans
    (hrendered.listeners_perm hevents)
  refine ⟨ClassDecl.eventHandlers_eq_numbered h,
    ⟨hperm, hperm.nodup_iff.mpr (nodup_names handlerName_inj _)⟩, ⟨l.root.rootOutline nameOf, ?_, ?_⟩,
    hrendered.once, hevents⟩
  · exact Outline.ofRootTokens_encodeRoot nameOf l.root hrendered.no_contentSequence
  · rw [Instruction.rootOutline_listeners]
    refine List.map_congr_left fun i hi => ?_
    rw [Instruction.heard, hrendered.listeners hi, Markup.listenersOf, List.map_map]
    rfl

/-- The class of the sign-in view, whose button has two events with one of a field between them. -/
def signInView : ClassDecl :=
  { name := signIn.owner, tree := some signIn.tree, events := signIn.events }

/-- The field is encoded before the button, so the handlers are named out of order. -/
theorem signInView_events_wired :
    ∃ l, signInView.linearize = .ok (some l) ∧
      handlersIn (l.root.encodeRoot Name.text) = ["$EH1", "$EH0", "$EH2"] ∧
      signInView.heardAt ⟨5⟩ = [("click", "$EH0"), ("focus", "$EH2")] ∧
      signInView.eventHandlers (some l) = .ok signInView.numberedHandlers ∧
      ∀ e ∈ signInView.events, e.node ∈ l.root.flatten.map (·.node) := by
  obtain ⟨hhandlers, -, -, -, hevents⟩ := events_wired Name.text signInView _ rfl
  exact ⟨_, rfl, rfl, rfl, hhandlers, hevents⟩

end Lowering
