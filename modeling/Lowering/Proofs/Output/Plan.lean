import Lowering.Output.ClassPlan
import Lowering.Proofs.Dependency.Mentions
import Lowering.Proofs.Linearize.Coverage

/-! What a plan is made from.

A class that is planned is registered, has its dependencies, and its tree is linearized.
The accessor pairs are those that the class declares and those of the identities in the
settled tree; the handlers are the event bindings, one for one. Since the instructions are
those of the nodes of the settled tree, their types and expressions are the nodes'. -/
namespace Lowering

/-! ### Linearized trees -/

namespace Markup.Rendered

variable {m : Markup} {l : Linearized} (h : m.Rendered l)

include h

/-- Below the root are the instructions of the other nodes. -/
theorem mem_below {j : Instruction} :
    j ∈ l.root.children.flatMap Instruction.flatten ↔
      j ∈ l.root.flatten ∧ j.node ≠ m.tree.root := by
  have honce := h.once
  rw [Instruction.flatten_eq, List.map_cons, List.nodup_cons, h.root_node] at honce
  rw [Instruction.flatten_eq, List.mem_cons]
  constructor
  · intro hj
    exact ⟨.inr hj, fun hnode => honce.1 (hnode ▸ List.mem_map_of_mem hj)⟩
  · intro hright
    obtain ⟨rfl | hj, hnode⟩ := hright
    · exact absurd h.root_node hnode
    · exact hj

/-- The types of the instructions below the root are those of the settled nodes. -/
theorem mem_targets {n : Name} :
    n ∈ (l.root.children.flatMap Instruction.flatten).map (·.target) ↔ n ∈ m.tree.settled.targets := by
  rw [Tree.mem_targets]
  constructor
  · intro hn
    obtain ⟨j, hj, rfl⟩ := List.mem_map.mp hn
    obtain ⟨hj, hnode⟩ := h.mem_below.mp hj
    obtain ⟨k, hk, hmade, hexposed⟩ := h.node_of_instruction hj
    exact ⟨k, hk, hmade.node ▸ hnode, hmade.target⟩
  · intro hright
    obtain ⟨k, hk, hkey, rfl⟩ := hright
    obtain ⟨j, hj, hmade, hexposed⟩ := h.instruction_of_node hk
    exact List.mem_map.mpr ⟨j, h.mem_below.mpr ⟨hj, hmade.node ▸ hkey⟩, hmade.target⟩

/-- So are the expressions of all instructions. -/
theorem mem_exprs {e : Expr} :
    e ∈ l.root.flatten.flatMap (·.exprs) ↔ e ∈ m.tree.settled.reachable.flatMap (·.exprs) := by
  constructor
  · intro he
    obtain ⟨j, hj, he⟩ := List.mem_flatMap.mp he
    obtain ⟨k, hk, hmade, hexposed⟩ := h.node_of_instruction hj
    exact List.mem_flatMap.mpr ⟨k, hk, hmade.exprs ▸ he⟩
  · intro he
    obtain ⟨k, hk, he⟩ := List.mem_flatMap.mp he
    obtain ⟨j, hj, hmade, hexposed⟩ := h.instruction_of_node hk
    exact List.mem_flatMap.mpr ⟨j, hj, hmade.exprs ▸ he⟩

theorem mem_bindings {b : BindingField} :
    b ∈ l.bindings ↔ ∃ j ∈ l.root.children.flatMap Instruction.flatten, j.field? = some b := by
  rw [h.bindings, List.mem_filterMap]

/-- Every instruction below the root is assigned to a field. -/
theorem mem_binding_targets {n : Name} :
    n ∈ l.bindings.map (·.target) ↔ n ∈ m.tree.settled.targets := by
  rw [← h.mem_targets, List.mem_map, List.mem_map]
  constructor
  · intro hright
    obtain ⟨b, hb, rfl⟩ := hright
    obtain ⟨j, hj, hfield⟩ := h.mem_bindings.mp hb
    obtain ⟨d, -, rfl⟩ := Option.map_eq_some_iff.mp hfield
    exact ⟨j, hj, rfl⟩
  · intro hright
    obtain ⟨j, hj, rfl⟩ := hright
    obtain ⟨k, hk⟩ := h.below j hj
    obtain ⟨d, hd, -⟩ := hk.named.identity
    exact ⟨_, h.mem_bindings.mpr ⟨j, hj, by rw [Instruction.field?, hd]; rfl⟩, rfl⟩

/-- A field is exposed for each node that the source names. -/
theorem exposed_iff :
    (∃ b, b ∈ l.exposed) ↔ ∃ k ∈ m.tree.settled.reachable, k.id.isSome = true := by
  constructor
  · intro hright
    obtain ⟨b, hb⟩ := hright
    obtain ⟨hb, hexposed⟩ := List.mem_filter.mp hb
    obtain ⟨j, hj, hfield⟩ := h.mem_bindings.mp hb
    obtain ⟨k, hk, hmade, hid⟩ := h.node_of_instruction (h.mem_below.mp hj).1
    rw [hfield] at hid
    exact ⟨k, hk, hid ▸ hexposed⟩
  · intro hright
    obtain ⟨k, hk, hid⟩ := hright
    obtain ⟨j, hj, hmade, hexposed⟩ := h.instruction_of_node hk
    rw [hid] at hexposed
    cases hfield : j.field? with
    | none =>
      rw [hfield] at hexposed
      cases hexposed
    | some b =>
      rw [hfield] at hexposed
      have hbelow : j ∈ l.root.children.flatMap Instruction.flatten := by
        rw [Instruction.flatten_eq] at hj
        rcases List.mem_cons.mp hj with rfl | hj
        · obtain ⟨r, hr⟩ := h.root
          rw [Instruction.field?, hr.identity] at hfield
          cases hfield
        · exact hj
      exact ⟨b, List.mem_filter.mpr ⟨h.mem_bindings.mpr ⟨j, hbelow, hfield⟩, hexposed⟩⟩

end Markup.Rendered

/-! ### Plans -/

namespace ClassDecl

variable {c : ClassDecl} {t : SymbolTable} {o : Options} {p : ClassPlan}

/-- What the parts of a plan are. -/
structure Planned (c : ClassDecl) (t : SymbolTable) (o : Options) (p : ClassPlan) : Prop where
  decl : p.decl = c
  options : p.options = o
  symbol : t.find? c.name = some p.symbol
  dependencies : c.dependencies t o = .ok p.dependencies
  linearized : c.linearize = .ok p.linearized
  accessors : p.accessors =
    c.declaredPairs o ++ ((p.linearized.map (·.exposed)).getD []).map .ofIdentity
  handlers : c.eventHandlers p.linearized = .ok p.handlers

/-- The pairs are those of the accessors and of the identities, which have no taken name. -/
theorem accessorPairs_eq_ok {l : Option Linearized} {pairs : List AccessorPair} :
    c.accessorPairs o l = .ok pairs ↔
      (∀ b ∈ (l.map (·.exposed)).getD [],
        b.name ∉ c.takenNames (c.declaredPairs o) ((l.map (·.exposed)).getD [])) ∧
      pairs = c.declaredPairs o ++ ((l.map (·.exposed)).getD []).map .ofIdentity := by
  unfold accessorPairs
  dsimp only
  cases hfind : ((l.map (·.exposed)).getD []).find? fun b =>
      b.name ∈ c.takenNames (c.declaredPairs o) ((l.map (·.exposed)).getD []) with
  | none =>
    have hfree := List.find?_eq_none.mp hfind
    simp only [decide_eq_true_eq] at hfree
    exact ⟨fun h => ⟨hfree, (Except.ok.inj h).symm⟩, fun h => congrArg Except.ok h.2.symm⟩
  | some b =>
    have htaken := List.find?_some hfind
    exact ⟨nofun, fun h => absurd (of_decide_eq_true htaken) (h.1 b (List.mem_of_find?_eq_some hfind))⟩

theorem plan_eq_ok (h : c.plan t o = .ok p) : c.Planned t o p := by
  obtain ⟨symbol, hsymbol, h⟩ := bind_eq_ok.mp h
  obtain ⟨needed, hneeded, h⟩ := bind_eq_ok.mp h
  obtain ⟨linearized, hlinearized, h⟩ := bind_eq_ok.mp h
  obtain ⟨accessors, haccessors, h⟩ := bind_eq_ok.mp h
  obtain ⟨handlers, hhandlers, h⟩ := bind_eq_ok.mp h
  obtain rfl := Except.ok.inj h
  refine ⟨rfl, rfl, ?_, hneeded, hlinearized, (accessorPairs_eq_ok.mp haccessors).2, hhandlers⟩
  unfold SymbolTable.resolve at hsymbol
  cases hfind : t.find? c.name with
  | none =>
    rw [hfind] at hsymbol
    cases hsymbol
  | some s =>
    rw [hfind] at hsymbol
    obtain rfl := Except.ok.inj hsymbol
    rfl

/-- A class has instructions when it has a tree, and then they are those of its markup. -/
theorem markup_of_linearize {l : Linearized} (h : c.linearize = .ok (some l)) :
    ∃ m, c.markup? = some m ∧ m.linearize = .ok l := by
  unfold linearize at h
  cases hm : c.markup? with
  | none =>
    rw [hm] at h
    cases h
  | some m =>
    rw [hm] at h
    obtain ⟨l, hl, hsome⟩ := map_eq_ok.mp h
    obtain rfl := Option.some.inj hsome
    exact ⟨m, rfl, hl⟩

theorem linearize_eq_some {l : Linearized} (h : c.linearize = .ok (some l)) :
    ∃ tree, c.tree = some tree ∧
      Markup.Rendered { owner := c.name, tree, events := c.events, location := c.location } l := by
  obtain ⟨m, hm, hl⟩ := markup_of_linearize h
  obtain ⟨tree, htree, rfl⟩ := Option.map_eq_some_iff.mp hm
  exact ⟨tree, htree, Markup.linearize_renders hl⟩

theorem linearize_eq_none (h : c.linearize = .ok none) : c.tree = none := by
  unfold linearize markup? at h
  cases htree : c.tree with
  | none => rfl
  | some tree =>
    rw [htree] at h
    obtain ⟨l, -, hnone⟩ := map_eq_ok.mp h
    cases hnone

/-- Every slot of a linearized tree stands for an event binding of the class. -/
theorem handlerAt_eq {l : Linearized} (hl : c.linearize = .ok (some l)) :
    ∀ slot ∈ l.handlers, c.handlerAt slot =
      .ok (.ofBinding slot (c.events[slot.binding]?.getD default)) := by
  obtain ⟨tree, -, hrendered⟩ := linearize_eq_some hl
  intro slot hslot
  rw [hrendered.handlers, Markup.handlers] at hslot
  obtain ⟨⟨e, i⟩, he, rfl⟩ := List.mem_map.mp hslot
  rw [handlerAt, List.mk_mem_zipIdx_iff_getElem?.mp he]
  rfl

/-- One handler for each event binding, numbered in their order. -/
def numberedHandlers (c : ClassDecl) : List Handler :=
  c.events.zipIdx.map fun (e, i) => ⟨handlerName i, e.event, e.node, e.eventType, e.body⟩

theorem eventHandlers_eq_numbered {l : Linearized} (hl : c.linearize = .ok (some l)) :
    c.eventHandlers (some l) = .ok c.numberedHandlers := by
  obtain ⟨tree, -, hrendered⟩ := linearize_eq_some hl
  have hall : c.eventHandlers (some l) = _ := mapM_eq_map (handlerAt_eq hl)
  rw [hall, hrendered.handlers, Markup.handlers, List.map_map, numberedHandlers]
  refine congrArg Except.ok (List.map_congr_left fun slot hslot => ?_)
  obtain ⟨e, i⟩ := slot
  have hget := List.mk_mem_zipIdx_iff_getElem?.mp hslot
  simp [Handler.ofBinding, hget]

/-- Without a tree there is no event, and so no handler. -/
theorem eventHandlers_none {handlers : List Handler} (h : c.eventHandlers none = .ok handlers) :
    c.events = [] ∧ handlers = [] := by
  unfold eventHandlers at h
  cases hevents : c.events with
  | nil =>
    rw [hevents] at h
    exact ⟨rfl, (Except.ok.inj h).symm⟩
  | cons e rest =>
    rw [hevents] at h
    cases h

/-- The handlers are the event bindings, one for one. -/
theorem eventHandlers_eq {l : Option Linearized} {handlers : List Handler} (hl : c.linearize = .ok l)
    (h : c.eventHandlers l = .ok handlers) :
    handlers.map (fun handler => (handler.eventType, handler.body)) =
      c.events.map fun e => (e.eventType, e.body) := by
  cases l with
  | none =>
    obtain ⟨hevents, rfl⟩ := eventHandlers_none h
    rw [hevents]
    rfl
  | some l =>
    obtain rfl := Except.ok.inj ((eventHandlers_eq_numbered hl).symm.trans h)
    conv_rhs => rw [← List.zipIdx_map_fst 0 c.events]
    rw [numberedHandlers, List.map_map, List.map_map]
    rfl

end ClassDecl

end Lowering
