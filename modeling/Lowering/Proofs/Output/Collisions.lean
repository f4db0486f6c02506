import Lowering.Proofs.Linearize.Numbering
import Lowering.Proofs.Output.Plan

/-! The names of generated members.

The markup of a class generates fields for its identities, pairs for those that the source gives,
and handlers for its events. These names never meet each other, and of the names that the class
itself declares they meet only three kinds, which no check looks at: a getter or setter of an
identity may be a declared field, method or storage; an identity may be the mangled name of a
private member; and a numbered name may be that of a field or method. Where the declarations avoid
these, every member of the class has a name of its own (`generated_apart_iff`). -/
namespace Lowering

/-! ### Shapes of names -/

/-- The name of a getter or a setter. -/
def IsAccessor (property name : String) : Prop := name = getterName property ∨ name = setterName property

theorem getterName_ne_setterName (a b : String) : getterName a ≠ setterName b := by
  intro h
  have hletter := congrArg (fun s : String => s.toList.head?) h
  simp [getterName, setterName] at hletter

/-- A getter or setter tells its property. -/
theorem IsAccessor.inj {a b name : String} (ha : IsAccessor a name) (hb : IsAccessor b name) :
    a = b := by
  rcases ha with rfl | rfl <;> rcases hb with hb | hb
  · exact (String.append_right_inj _).mp hb
  · exact absurd hb (getterName_ne_setterName a b)
  · exact absurd hb.symm (getterName_ne_setterName b a)
  · exact (String.append_right_inj _).mp hb

/-- A synthesized name starts with a dollar sign and ends with a digit. -/
theorem Synthetic.ends {name : String} (h : Synthetic name) :
    name.toList.head? = some '$' ∧ ∃ d, name.toList.getLast? = some d ∧ d.isDigit := by
  have hends : ∀ marker, marker.toList.head? = some '$' → Numbered marker name →
      name.toList.head? = some '$' ∧ ∃ d, name.toList.getLast? = some d ∧ d.isDigit := by
    intro marker hmarker hname
    obtain ⟨digits, hne, hdigits, heq⟩ := hname
    rw [heq, List.getLast?_append_of_ne_nil _ hne, List.getLast?_eq_getLast_of_ne_nil hne,
      List.head?_append, hmarker]
    exact ⟨rfl, _, rfl, hdigits _ (List.getLast_mem hne)⟩
  rcases h with h | h
  · exact hends _ (by decide) h
  · exact hends _ (by decide) h

theorem IsAccessor.not_synthetic {a name : String} (h : IsAccessor a name) : ¬Synthetic name := by
  intro hname
  have hhead := hname.ends.1
  rcases h with rfl | rfl
  · simp [getterName] at hhead
  · simp [setterName] at hhead

/-- What an accessor is kept in ends with an underscore, whether it is mangled or not. -/
theorem storage_not_synthetic (owner : Name) (mangled : Bool) (a : Accessor) :
    ¬Synthetic (AccessorPair.ofDeclared owner mangled a).storage := by
  intro h
  obtain ⟨d, hd, hdigit⟩ := h.ends.2
  obtain ⟨front, hfront⟩ : ∃ front, (AccessorPair.ofDeclared owner mangled a).storage = front ++ "_" := by
    simp only [AccessorPair.ofDeclared]
    split
    · exact ⟨owner.flat ++ "_" ++ a.name, (String.append_assoc ..).symm⟩
    · exact ⟨a.name, rfl⟩
  rw [hfront, String.toList_append, List.getLast?_append_of_ne_nil _ (by decide)] at hd
  obtain rfl := Option.some.inj hd
  exact absurd hdigit (by decide)

namespace ClassDecl

variable (c : ClassDecl) (o : Options)

/-! ### The members of an instance -/

/-- The fields and methods that the class declares for its instances. -/
def instanceMembers : List String :=
  (c.fields.filter (!·.isStatic)).map (·.name) ++ (c.methods.filter (!·.isStatic)).map (·.name)

/-- The emitted names of these. -/
def instanceNames : List String := c.instanceMembers.map (c.scope o).memberName

/-- The emitted names of all that the class declares for its instances. -/
def declaredNames (pairs : List AccessorPair) : List String :=
  c.instanceNames o ++ (pairs.filter (·.origin = .declared)).flatMap (·.memberNames)

variable {c o}

/-- A private member is mangled where private members are; the others keep their names. -/
theorem memberName_eq (n : String) :
    (c.scope o).memberName n =
      if o.mangledPrivates = true ∧ n ∈ c.privateNames false then privateName c.name n else n := by
  show ((c.mangledNames o false).get? n).getD n = _
  unfold mangledNames
  cases o.mangledPrivates with
  | false => simp [OrderedMap.empty, OrderedMap.get?]
  | true =>
    rw [if_pos rfl, OrderedMap.get?_ofList_map]
    by_cases hn : n ∈ c.privateNames false
    · simp [hn]
    · simp [hn]

theorem instanceMembers_of_private {n : String} (h : n ∈ c.privateNames false) :
    n ∈ c.instanceMembers := by
  rcases List.mem_append.mp h with h | h
  · obtain ⟨f, hf, rfl⟩ := List.mem_map.mp h
    obtain ⟨hf, hprivate⟩ := List.mem_filter.mp hf
    exact List.mem_append_left _ (List.mem_map_of_mem (List.mem_filter.mpr ⟨hf, by simp_all⟩))
  · obtain ⟨f, hf, rfl⟩ := List.mem_map.mp h
    obtain ⟨hf, hprivate⟩ := List.mem_filter.mp hf
    exact List.mem_append_right _ (List.mem_map_of_mem (List.mem_filter.mpr ⟨hf, by simp_all⟩))

/-- The pairs of a class are told apart by what they are made for. -/
theorem filter_declared (exposed : List BindingField) :
    ((c.declaredPairs o ++ exposed.map AccessorPair.ofIdentity).filter fun p => p.origin = .declared) =
      c.declaredPairs o := by
  rw [List.filter_append, declaredPairs, List.filter_map, List.filter_map]
  simp [Function.comp_def, AccessorPair.ofDeclared, AccessorPair.ofIdentity]

theorem filter_identity (exposed : List BindingField) :
    ((c.declaredPairs o ++ exposed.map AccessorPair.ofIdentity).filter fun p => p.origin = .identity) =
      exposed.map .ofIdentity := by
  rw [List.filter_append, declaredPairs, List.filter_map, List.filter_map]
  simp [Function.comp_def, AccessorPair.ofDeclared, AccessorPair.ofIdentity]

theorem mem_declaredNames {exposed : List BindingField} {name : String} :
    name ∈ c.declaredNames o (c.declaredPairs o ++ exposed.map .ofIdentity) ↔
      name ∈ c.instanceNames o ∨ ∃ p ∈ c.declaredPairs o, IsAccessor p.property name ∨ name = p.storage := by
  rw [declaredNames, filter_declared, List.mem_append, List.mem_flatMap]
  simp only [AccessorPair.memberNames, AccessorPair.getter, AccessorPair.setter, IsAccessor,
    List.mem_cons, List.not_mem_nil, or_false, or_assoc]

/-! ### Checked names -/

/-- An identity that passes the check is no member's original name, and no name of a pair. -/
theorem not_taken {exposed : List BindingField} {name : String}
    (h : name ∉ c.takenNames (c.declaredPairs o) exposed) :
    name ∉ c.instanceMembers ∧
      (∀ p ∈ c.declaredPairs o, name ≠ p.property ∧ ¬IsAccessor p.property name ∧ name ≠ p.storage) ∧
      ∀ b ∈ exposed, ¬IsAccessor b.name name := by
  simp only [takenNames, List.mem_append, not_or] at h
  obtain ⟨⟨⟨⟨hfields, haccessors⟩, hmethods⟩, hpairs⟩, hidentities⟩ := h
  refine ⟨fun hmember => ?_, fun p hp => ⟨?_, ?_, ?_⟩, fun b hb haccessor => ?_⟩
  · rcases List.mem_append.mp hmember with hmember | hmember
    · exact hfields (List.map_subset _ (List.filter_subset_self _) hmember)
    · exact hmethods (List.map_subset _ (List.filter_subset_self _) hmember)
  · rintro rfl
    obtain ⟨a, ha, rfl⟩ := List.mem_map.mp hp
    exact haccessors (List.mem_map_of_mem ha)
  · intro haccessor
    refine hpairs (List.mem_flatMap.mpr ⟨p, hp, ?_⟩)
    rcases haccessor with rfl | rfl <;> simp [AccessorPair.memberNames, AccessorPair.getter, AccessorPair.setter]
  · rintro rfl
    exact hpairs (List.mem_flatMap.mpr ⟨p, hp, by simp [AccessorPair.memberNames]⟩)
  · refine hidentities (List.mem_flatMap.mpr ⟨b, hb, ?_⟩)
    rcases haccessor with rfl | rfl <;> simp

end ClassDecl

/-! ### What markup generates -/

/-- The emitted names of what markup generates: fields, the getters and setters of those that the
source names, and handlers. -/
def generatedNames (l : Option Linearized) (pairs : List AccessorPair) (handlers : List Handler) :
    List String :=
  l.toList.flatMap (·.bindings.map (·.name)) ++
    (pairs.filter (·.origin = .identity)).flatMap (fun p => [p.getter, p.setter]) ++
    handlers.map (·.name)

/-- The declarations of a class avoid the names that are generated without a check. -/
structure ClassDecl.Avoids (c : ClassDecl) (o : Options) (l : Linearized) : Prop where
  /-- No field or method is, and no accessor is kept in, the getter or setter of an identity. -/
  accessors : ∀ b ∈ l.exposed, ∀ name, IsAccessor b.name name →
    name ∉ c.instanceNames o ∧ ∀ p ∈ c.declaredPairs o, name ≠ p.storage
  /-- No private member is mangled to an identity. -/
  mangled : o.mangledPrivates = true → ∀ n ∈ c.privateNames false, ∀ b ∈ l.exposed,
    b.name ≠ privateName c.name n
  /-- No field or method has a name that is given by number. -/
  fields : ∀ k < (l.bindings.filter (!·.exposed)).length, bindingName k ∉ c.instanceNames o
  handlers : ∀ k < c.events.length, handlerName k ∉ c.instanceNames o

variable {c : ClassDecl} {o : Options} {l : Linearized}

section
variable (hl : c.linearize = .ok (some l))
include hl

/-- What is generated for a class that linearizes. -/
theorem generatedNames_eq :
    generatedNames (some l) (c.declaredPairs o ++ l.exposed.map .ofIdentity) c.numberedHandlers =
      l.bindings.map (·.name) ++ l.exposed.flatMap (fun b => [getterName b.name, setterName b.name]) ++
        l.handlers.map (·.name) := by
  obtain ⟨m, hm, hlinearized⟩ := ClassDecl.markup_of_linearize hl
  obtain ⟨tree, -, rfl⟩ := Option.map_eq_some_iff.mp hm
  have hhandlers : c.numberedHandlers.map (·.name) = l.handlers.map (·.name) := by
    rw [(Markup.linearize_renders hlinearized).handlers, ClassDecl.numberedHandlers, Markup.handlers,
      List.map_map, List.map_map]
    rfl
  rw [generatedNames, ClassDecl.filter_identity, hhandlers, Option.toList_some,
    List.flatMap_singleton, List.flatMap_map]
  rfl

/-- A field has the identity that the source gives, or one of the numbered names. -/
theorem mem_binding_names {name : String} :
    name ∈ l.bindings.map (·.name) ↔ (∃ b ∈ l.exposed, name = b.name) ∨
      ∃ k < (l.bindings.filter (!·.exposed)).length, name = bindingName k := by
  obtain ⟨m, -, hlinearized⟩ := ClassDecl.markup_of_linearize hl
  have hsplit : name ∈ l.bindings.map (·.name) ↔
      name ∈ l.exposed.map (·.name) ∨ name ∈ (l.bindings.filter (!·.exposed)).map (·.name) := by
    rw [← List.mem_append, ← List.map_append]
    exact ((List.filter_append_perm (·.exposed) l.bindings).map _).mem_iff.symm
  rw [hsplit, Markup.synthesized_names hlinearized]
  simp only [List.mem_map, List.mem_range, eq_comm (a := name)]

theorem mem_handler_names {name : String} :
    name ∈ l.handlers.map (·.name) ↔ ∃ k < c.events.length, name = handlerName k := by
  obtain ⟨m, hm, hlinearized⟩ := ClassDecl.markup_of_linearize hl
  obtain ⟨tree, -, rfl⟩ := Option.map_eq_some_iff.mp hm
  rw [Markup.handlers_numbered hlinearized]
  simp only [List.mem_map, List.mem_range, eq_comm (a := name)]

theorem mem_generatedNames {name : String} :
    name ∈ generatedNames (some l) (c.declaredPairs o ++ l.exposed.map .ofIdentity) c.numberedHandlers ↔
      (∃ b ∈ l.exposed, name = b.name ∨ IsAccessor b.name name) ∨
        (∃ k < (l.bindings.filter (!·.exposed)).length, name = bindingName k) ∨
        ∃ k < c.events.length, name = handlerName k := by
  rw [generatedNames_eq hl, List.mem_append, List.mem_append, mem_binding_names hl,
    mem_handler_names hl, List.mem_flatMap]
  simp only [List.mem_cons, List.not_mem_nil, or_false, IsAccessor, and_or_left, exists_or]
  exact (or_congr_left or_right_comm).trans or_assoc

/-- Each getter and setter tells its identity. -/
theorem accessors_nodup :
    (l.exposed.flatMap fun b => [getterName b.name, setterName b.name]).Nodup := by
  obtain ⟨m, -, hlinearized⟩ := ClassDecl.markup_of_linearize hl
  have hnames : (l.exposed.map (·.name)).Nodup :=
    (List.nodup_append.mp (Markup.names_nodup hlinearized)).1.sublist
      (List.filter_sublist.map _)
  refine List.nodup_flatMap.mpr ⟨fun b _ => by simp [getterName_ne_setterName], ?_⟩
  refine (List.pairwise_map.mp hnames).imp fun {b b'} hne name hb hb' => hne ?_
  simp only [List.mem_cons, List.not_mem_nil, or_false] at hb hb'
  exact IsAccessor.inj hb hb'

/-- An identity is checked against all getters and setters, and a number makes none. -/
theorem generatedNames_nodup
    (hfree : ∀ b ∈ l.exposed, b.name ∉ c.takenNames (c.declaredPairs o) l.exposed) :
    (generatedNames (some l) (c.declaredPairs o ++ l.exposed.map .ofIdentity) c.numberedHandlers).Nodup := by
  obtain ⟨m, -, hlinearized⟩ := ClassDecl.markup_of_linearize hl
  rw [generatedNames_eq hl, List.append_assoc,
    (List.perm_append_comm.append_left _).nodup_iff, ← List.append_assoc]
  refine List.nodup_append.mpr ⟨Markup.names_nodup hlinearized, accessors_nodup hl, ?_⟩
  rintro name hname _ haccessor rfl
  obtain ⟨b, hb, haccessor⟩ := List.mem_flatMap.mp haccessor
  simp only [List.mem_cons, List.not_mem_nil, or_false] at haccessor
  rcases List.mem_append.mp hname with hname | hname
  · obtain ⟨b', hb', rfl⟩ | ⟨k, -, rfl⟩ := (mem_binding_names hl).mp hname
    · exact (ClassDecl.not_taken (hfree b' hb')).2.2 b hb haccessor
    · exact IsAccessor.not_synthetic haccessor (synthetic_bindingName k)
  · obtain ⟨k, -, rfl⟩ := (mem_handler_names hl).mp hname
    exact IsAccessor.not_synthetic haccessor (synthetic_handlerName k)

end

/-- The names that are given by number meet no pair that the class declares. -/
theorem synthetic_not_declared {name : String} (h : Synthetic name) :
    ∀ p ∈ c.declaredPairs o, ¬IsAccessor p.property name ∧ name ≠ p.storage := by
  intro p hp
  refine ⟨fun haccessor => haccessor.not_synthetic h, ?_⟩
  rintro rfl
  obtain ⟨a, -, rfl⟩ := List.mem_map.mp hp
  exact storage_not_synthetic c.name o.mangledPrivates a h

theorem avoids_iff (hl : c.linearize = .ok (some l))
    (hfree : ∀ b ∈ l.exposed, b.name ∉ c.takenNames (c.declaredPairs o) l.exposed) :
    (∀ name ∈ generatedNames (some l) (c.declaredPairs o ++ l.exposed.map .ofIdentity) c.numberedHandlers,
      name ∉ c.declaredNames o (c.declaredPairs o ++ l.exposed.map .ofIdentity)) ↔ c.Avoids o l := by
  simp only [mem_generatedNames hl, ClassDecl.mem_declaredNames, not_or, not_exists, not_and]
  constructor
  · intro h
    constructor
    · intro b hb name hname
      obtain ⟨hinstance, hpairs⟩ := h name (.inl ⟨b, hb, .inr hname⟩)
      exact ⟨hinstance, fun p hp => (hpairs p hp).2⟩
    · rintro hmangled n hn b hb hname
      refine (h b.name (.inl ⟨b, hb, .inl rfl⟩)).1 (List.mem_map.mpr ⟨n, ?_, ?_⟩)
      · exact ClassDecl.instanceMembers_of_private hn
      · rw [ClassDecl.memberName_eq, if_pos ⟨hmangled, hn⟩, hname]
    · exact fun k hk => (h _ (.inr (.inl ⟨k, hk, rfl⟩))).1
    · exact fun k hk => (h _ (.inr (.inr ⟨k, hk, rfl⟩))).1
  · rintro h name (⟨b, hb, rfl | hname⟩ | ⟨k, hk, rfl⟩ | ⟨k, hk, rfl⟩)
    -- An identity is checked against the names as they are declared.
    · obtain ⟨hmember, hpairs, -⟩ := ClassDecl.not_taken (hfree b hb)
      refine ⟨fun hinstance => ?_, fun p hp => (hpairs p hp).2⟩
      obtain ⟨n, hn, hname⟩ := List.mem_map.mp hinstance
      rw [ClassDecl.memberName_eq] at hname
      split at hname
      next hmangled => exact h.mangled hmangled.1 n hmangled.2 b hb hname.symm
      next => exact hmember (hname ▸ hn)
    -- Two pairs that share a name are for one property, which is checked.
    · obtain ⟨hinstance, hstorage⟩ := h.accessors b hb name hname
      obtain ⟨-, hpairs, -⟩ := ClassDecl.not_taken (hfree b hb)
      exact ⟨hinstance, fun p hp => ⟨fun haccessor => (hpairs p hp).1 (hname.inj haccessor),
        hstorage p hp⟩⟩
    · exact ⟨h.fields k hk, synthetic_not_declared (synthetic_bindingName k)⟩
    · exact ⟨h.handlers k hk, synthetic_not_declared (synthetic_handlerName k)⟩

/-- **The names that markup generates for a class never meet each other, and they meet none that
the class declares exactly where the declarations avoid those that no check looks at.** -/
theorem generated_apart_iff (c : ClassDecl) (o : Options) (l : Option Linearized)
    (pairs : List AccessorPair) (handlers : List Handler) (hl : c.linearize = .ok l)
    (hpairs : c.accessorPairs o l = .ok pairs) (hhandlers : c.eventHandlers l = .ok handlers) :
    (generatedNames l pairs handlers).Nodup ∧
      ((∀ name ∈ generatedNames l pairs handlers, name ∉ c.declaredNames o pairs) ↔
        ∀ i ∈ l, c.Avoids o i) := by
  obtain ⟨hfree, rfl⟩ := ClassDecl.accessorPairs_eq_ok.mp hpairs
  cases l with
  | none =>
    obtain ⟨-, rfl⟩ := ClassDecl.eventHandlers_none hhandlers
    have hnothing : generatedNames none (c.declaredPairs o ++ [].map .ofIdentity) [] = [] := by
      rw [generatedNames, ClassDecl.filter_identity]
      rfl
    rw [show ((none : Option Linearized).map (·.exposed)).getD [] = [] from rfl, hnothing]
    simp
  | some l =>
    obtain rfl := Except.ok.inj ((ClassDecl.eventHandlers_eq_numbered hl).symm.trans hhandlers)
    refine ⟨generatedNames_nodup hl hfree, (avoids_iff hl hfree).trans ?_⟩
    simp

/-- The sign-in view with a private draft, a count that is kept privately, and a method. -/
def draftingView : ClassDecl :=
  { name := signIn.owner, tree := some signIn.tree, events := signIn.events
    fields := [{ name := "draft", type := .declared ⟨"String"⟩, visibility := .owner }]
    accessors := [{ name := "tries", type := .declared ⟨"int"⟩, visibility := .owner }]
    methods := [{ name := "reset" }] }

def mangling : Options := { mangledPrivates := true }

/-- Twelve names are generated for the view, apart from the five that it declares. -/
theorem draftingView_generated_apart :
    ∃ l pairs handlers, draftingView.linearize = .ok (some l) ∧
      draftingView.accessorPairs mangling (some l) = .ok pairs ∧
      draftingView.eventHandlers (some l) = .ok handlers ∧
      (generatedNames (some l) pairs handlers).length = 12 ∧
      draftingView.declaredNames mangling pairs =
        ["app_SignIn_draft", "reset", "get_tries", "set_tries", "app_SignIn_tries_"] ∧
      (generatedNames (some l) pairs handlers).Nodup ∧ draftingView.Avoids mangling l := by
  obtain ⟨hnodup, havoids⟩ := generated_apart_iff draftingView mangling _ _ _ rfl rfl rfl
  refine ⟨_, _, _, rfl, rfl, rfl, rfl, rfl, hnodup, havoids.mp ?_ _ rfl⟩
  decide

/-- A view with a label that the source names, beside a method with the name of its getter. -/
def labelledView : ClassDecl where
  name := ⟨"app.Main"⟩
  methods := [{ name := "get_label" }]
  tree := some {
    root := ⟨0⟩
    nodes := [{ key := ⟨0⟩, target := ⟨"ui.View"⟩, content := [⟨1⟩] },
      { key := ⟨1⟩, target := ⟨"ui.Label"⟩, id := some "label" }] }

/-- The getter that is generated and the method get one name. -/
theorem labelledView_collides :
    ∃ l pairs handlers, labelledView.linearize = .ok (some l) ∧
      labelledView.accessorPairs {} (some l) = .ok pairs ∧
      labelledView.eventHandlers (some l) = .ok handlers ∧
      "get_label" ∈ generatedNames (some l) pairs handlers ∧
      "get_label" ∈ labelledView.declaredNames {} pairs :=
  ⟨_, _, _, rfl, rfl, rfl, by decide, by decide⟩

end Lowering
