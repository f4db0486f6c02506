import Lowering.Proofs.Instruction.Reading
import Lowering.Proofs.Linearize.Walk

/-! What is read from encoded instructions.

The outline of an instruction is what the graph builder is meant to learn from its array:
the type as it is referred to, the identity with its property, values that are simple as
they are, and the outlines of the children where these are nested. Every array of an
instruction is read as the instruction's outline, and so are arrays one after the other;
the root is read without its type, with its content where content stands
(`encoded_read_back`). -/
namespace Lowering

variable {ρ : Type}

namespace Instruction

/-! ### Outlines -/

section
variable (nameOf : Name → ρ)

mutual

/-- What an array of the instruction says. -/
def outline : Instruction → Outline ρ
  | ⟨_, target, identity, properties, styles, listeners, content⟩ => {
    target := some (nameOf target)
    identity := identity.map fun d => (d.property, d.name)
    properties := outlineProperties properties
    styles := styles.map fun s => (s.name, .literal s.value)
    listeners := listeners.map fun l => (l.event, l.handler)
    content := outlineAll content }

def outlineProperties : List (String × InstructionValue) → List (String × OutlineValue ρ)
  | [] => []
  | (name, .literal value) :: rest => (name, .simple (.literal value)) :: outlineProperties rest
  | (name, .expression value) :: rest => (name, .simple (.expression value)) :: outlineProperties rest
  | (name, .node child) :: rest => (name, .node child.outline) :: outlineProperties rest
  | (name, .nodes children) :: rest => (name, .nodes (outlineAll children)) :: outlineProperties rest

/-- The outlines of several instructions in order. -/
def outlineAll : List Instruction → List (Outline ρ)
  | [] => []
  | i :: rest => i.outline :: outlineAll rest

end

/-- The outline of the root, which is read without its type. -/
def rootOutline (i : Instruction) : Outline ρ := { i.outline nameOf with target := none }

theorem outlineAll_eq (is : List Instruction) : outlineAll nameOf is = is.map (outline nameOf) := by
  induction is with
  | nil => rfl
  | cons i rest ih => rw [outlineAll, ih, List.map_cons]

theorem outlineProperties_append (ps qs : List (String × InstructionValue)) :
    outlineProperties nameOf (ps ++ qs) = outlineProperties nameOf ps ++ outlineProperties nameOf qs := by
  induction ps with
  | nil => rfl
  | cons p rest ih =>
    obtain ⟨name, value⟩ := p
    cases value <;> simp only [List.cons_append, outlineProperties, ih]

theorem encodeAll_eq (is : List Instruction) : encodeAll nameOf is = is.flatMap (encode nameOf) := by
  induction is with
  | nil => rfl
  | cons i rest ih => rw [encodeAll, ih, List.flatMap_cons]

theorem encode_ne_nil (i : Instruction) : i.encode nameOf ≠ [] := by
  obtain ⟨_, _, _, _, _, _, _⟩ := i
  exact List.cons_ne_nil _ _

end

end Instruction

/-! ### Reading what is encoded -/

namespace Outline

variable {nameOf : Name → ρ}

/-- No property of an instruction looks like its identity: the values of properties are
literals, expressions and arrays, and never names. -/
theorem splitIdentity_outline (identity : Option Identity) (ps : List (String × InstructionValue)) :
    splitIdentity (identity.toList.map (fun d => (d.property, .simple (.text d.name))) ++
        Instruction.outlineProperties nameOf ps) =
      (identity.map fun d => (d.property, d.name), Instruction.outlineProperties nameOf ps) := by
  cases identity with
  | some d =>
    have hproperty : isIdentityProperty d.property = true := by
      cases hexposed : d.exposed <;> simp [isIdentityProperty, Identity.property, hexposed]
    show (if isIdentityProperty d.property then _ else _) = _
    rw [if_pos hproperty]
    rfl
  | none =>
    cases ps with
    | nil => rfl
    | cons p rest =>
      obtain ⟨name, value⟩ := p
      cases value <;> rfl

/-- The identity is read as a property. -/
theorem reads_identity (identity : Option Identity) :
    Reads (ρ := ρ) (times property identity.toList.length) (identity.toList.flatMap Identity.tokens)
      (identity.toList.map fun d => (d.property, .simple (.text d.name))) :=
  Reads.times fun d _ => reads_property_simple d.property (.text d.name)

theorem reads_styles (styles : List Style) :
    Reads (ρ := ρ) (times style styles.length)
      (styles.flatMap fun s => [.text s.name, .mark true, .literal s.value])
      (styles.map fun s => (s.name, .literal s.value)) :=
  Reads.times fun s _ => reads_style s.name (.literal s.value)

theorem reads_listeners (listeners : List Listener) :
    Reads (ρ := ρ) (times listener listeners.length)
      (listeners.flatMap fun l => [.text l.event, .handler l.handler])
      (listeners.map fun l => (l.event, l.handler)) :=
  Reads.times fun l _ => reads_listener l.event l.handler

/-- Properties are read one by one, given how their children are read. -/
theorem reads_properties {ps : List (String × InstructionValue)}
    (h : ∀ c ∈ ps.flatMap (·.2.children), Reads node (c.encode nameOf) (c.outline nameOf)) :
    Reads (times property ps.length) (Instruction.encodeProperties nameOf ps)
      (Instruction.outlineProperties nameOf ps) := by
  induction ps with
  | nil => exact reads_pure []
  | cons p rest ih =>
    rw [List.flatMap_cons] at h
    obtain ⟨hp, hrest⟩ := List.forall_mem_append.mp h
    obtain ⟨name, value⟩ := p
    cases value with
    | literal value => exact (reads_property_simple name _).times_cons (ih hrest)
    | expression value => exact (reads_property_simple name _).times_cons (ih hrest)
    | node child =>
      exact (reads_property_node name (hp child List.mem_cons_self)).times_cons (ih hrest)
    | nodes children =>
      have hnodes := reads_property_nodes name hp fun c _ => Instruction.encode_ne_nil nameOf c
      rw [← Instruction.encodeAll_eq, ← Instruction.outlineAll_eq] at hnodes
      exact hnodes.times_cons (ih hrest)

/-- The array of a body is read as the outline of what is in it. -/
theorem reads_encodedBody (target : Option ρ) (identity : Option Identity)
    (ps : List (String × InstructionValue)) (styles : List Style) (listeners : List Listener)
    (h : ∀ c ∈ ps.flatMap (·.2.children), Reads node (c.encode nameOf) (c.outline nameOf)) :
    Reads (body target)
      (.count (identity.toList.length + ps.length) :: (identity.toList.flatMap Identity.tokens ++
        Instruction.encodeProperties nameOf ps ++ styleTokens styles ++ listenerTokens listeners))
      { target, identity := identity.map fun d => (d.property, d.name)
        properties := Instruction.outlineProperties nameOf ps
        styles := styles.map fun s => (s.name, .literal s.value)
        listeners := listeners.map fun l => (l.event, l.handler), content := [] } := by
  have hread := reads_body target ((reads_identity identity).times_append (reads_properties h))
    (reads_styles styles) (reads_listeners listeners)
  rw [splitIdentity_outline] at hread
  simpa only [styleTokens, listenerTokens, List.append_assoc, List.cons_append] using hread

/-- The array of a node is read as its outline, whatever comes after it. -/
theorem reads_encode (nameOf : Name → ρ) (i : Instruction) :
    Reads node (i.encode nameOf) (i.outline nameOf) := by
  induction i using Instruction.nesting with
  | step i ih =>
    obtain ⟨key, target, identity, properties, styles, listeners, content⟩ := i
    obtain ⟨hproperties, hcontent⟩ := List.forall_mem_append.mp ih
    have hbody := reads_encodedBody (some (nameOf target)) identity properties styles listeners hproperties
    have hnode := reads_node (nameOf target) hbody rfl hcontent fun c _ => Instruction.encode_ne_nil nameOf c
    rw [← Instruction.encodeAll_eq, ← Instruction.outlineAll_eq] at hnode
    exact hnode

end Outline

/-! ### The root -/

/-- Whether the property is a sequence of nodes under the name that carries the content of
the root. -/
def isContentSequence : String × InstructionValue → Bool
  | (name, .nodes _) => name = contentProperty
  | _ => false

namespace Outline

theorem liftContent_of_none {o : Outline ρ} (h : ∀ q ∈ o.properties, isContent q = false) :
    liftContent o = o := by
  have hnone : o.properties.find? isContent = none :=
    List.find?_eq_none.mpr fun q hq => by rw [h q hq]; exact Bool.false_ne_true
  rw [liftContent, hnone]

/-- Content that travels behind other properties is lifted. -/
theorem liftContent_of_last {o : Outline ρ} {ps : List (String × OutlineValue ρ)}
    {children : List (Outline ρ)} (ho : o.properties = ps ++ [(contentProperty, .nodes children)])
    (h : ∀ q ∈ ps, isContent q = false) :
    liftContent o = { o with properties := ps, content := children } := by
  have hnone : ps.find? isContent = none :=
    List.find?_eq_none.mpr fun q hq => by rw [h q hq]; exact Bool.false_ne_true
  have hlast : isContent ((contentProperty, .nodes children) : String × OutlineValue ρ) = true := by
    simp [isContent]
  have hfind : o.properties.find? isContent = some (contentProperty, .nodes children) := by
    rw [ho, List.find?_append, hnone, Option.none_or, List.find?_cons_of_pos hlast]
  have herase : o.properties.eraseP isContent = ps := by
    rw [ho, List.eraseP_append_right _ fun q hq => by rw [h q hq]; exact Bool.false_ne_true,
      List.eraseP_cons_of_pos hlast, List.append_nil]
  rw [liftContent, hfind]
  simp only [herase]

variable {nameOf : Name → ρ}

theorem isContent_outlineProperties {ps : List (String × InstructionValue)}
    (h : ∀ p ∈ ps, isContentSequence p = false) :
    ∀ q ∈ Instruction.outlineProperties nameOf ps, isContent q = false := by
  induction ps with
  | nil => exact fun q hq => absurd hq List.not_mem_nil
  | cons p rest ih =>
    obtain ⟨hp, hrest⟩ := List.forall_mem_cons.mp h
    obtain ⟨name, value⟩ := p
    cases value <;> exact List.forall_mem_cons.mpr ⟨hp, ih hrest⟩

/-- The array of the root is read as its outline, if nothing but its content travels as such. -/
theorem ofRootTokens_encodeRoot (nameOf : Name → ρ) (i : Instruction)
    (h : ∀ p ∈ i.properties, isContentSequence p = false) :
    ofRootTokens (i.encodeRoot nameOf) = .ok (i.rootOutline nameOf) := by
  have hbody := reads_encodedBody none i.identity (i.properties ++ i.rootContent) i.styles i.listeners
    fun c _ => reads_encode nameOf c
  refine map_eq_ok.mpr ⟨_, hbody.whole, ?_⟩
  obtain ⟨key, target, identity, properties, styles, listeners, content⟩ := i
  have hown : ∀ q ∈ Instruction.outlineProperties nameOf properties, isContent q = false :=
    isContent_outlineProperties h
  cases content with
  | nil =>
    simp only [Instruction.rootContent, List.isEmpty_nil, if_true, List.append_nil]
    exact liftContent_of_none hown
  | cons c rest =>
    exact liftContent_of_last (Instruction.outlineProperties_append nameOf properties _) hown

end Outline

/-- No root of a linearized tree has such a property: its content is in its place. -/
theorem Markup.Rendered.no_contentSequence {m : Markup} {l : Linearized} (h : m.Rendered l) :
    ∀ p ∈ l.root.properties, isContentSequence p = false := by
  obtain ⟨r, hr⟩ := h.root
  intro p hp
  have hsource : Markup.sourceOf p ∈ Property.simpleFirst (r.settled true).properties := by
    rw [← hr.made.properties]
    exact List.mem_map_of_mem hp
  have hkept : Markup.sourceOf p ∈ (r.settled true).properties := by
    rcases List.mem_append.mp hsource with hmem | hmem
    · exact (List.mem_filter.mp hmem).1
    · exact (List.mem_filter.mp hmem).1
  rw [Node.settled_properties] at hkept
  have hcontent : Markup.isRootContent true (Markup.sourceOf p) = false := by
    simpa using (List.mem_filter.mp hkept).2
  obtain ⟨name, value⟩ := p
  cases value with
  | nodes children => exact hcontent
  | _ => rfl

/-- **Reading undoes encoding: the array of every instruction is read as its outline, and
that of every root whose properties leave the name of the content alone, as is the case for
all linearized trees.** -/
theorem encoded_read_back (nameOf : Name → ρ) :
    (∀ i : Instruction, Outline.ofTokens (i.encode nameOf) = .ok (i.outline nameOf)) ∧
      (∀ i : Instruction, (∀ p ∈ i.properties, isContentSequence p = false) →
        Outline.ofRootTokens (i.encodeRoot nameOf) = .ok (i.rootOutline nameOf)) ∧
      ∀ (m : Markup) (l : Linearized), m.linearize = .ok l →
        (∀ p ∈ l.root.properties, isContentSequence p = false) ∧
          Outline.ofRootTokens (l.root.encodeRoot nameOf) = .ok (l.root.rootOutline nameOf) := by
  refine ⟨fun i => (Outline.reads_encode nameOf i).whole, Outline.ofRootTokens_encodeRoot nameOf,
    fun m l h => ?_⟩
  have hproperties := (Markup.linearize_renders h).no_contentSequence
  exact ⟨hproperties, Outline.ofRootTokens_encodeRoot nameOf l.root hproperties⟩

/-- A toolbar with a caption, two buttons, one of which has an identity and a listener, and a
separator as content. -/
def toolbar : Markup where
  owner := ⟨"app.Toolbar"⟩
  tree := {
    root := ⟨0⟩
    nodes := [
      { key := ⟨0⟩, target := ⟨"ui.Toolbar"⟩, styles := [⟨"color", .string "red"⟩], content := [⟨4⟩]
        properties := [⟨"buttons", .nodes [⟨2⟩, ⟨3⟩]⟩, ⟨"caption", .node ⟨1⟩⟩, ⟨"wide", .literal (.bool true)⟩] },
      { key := ⟨1⟩, target := ⟨"ui.Label"⟩, properties := [⟨"text", .expression (.ident "title")⟩] },
      { key := ⟨2⟩, target := ⟨"ui.Button"⟩, id := some "save" },
      { key := ⟨3⟩, target := ⟨"ui.Button"⟩ },
      { key := ⟨4⟩, target := ⟨"ui.Separator"⟩ }] }
  events := [{ node := ⟨2⟩, event := "click" }]

/-- A box that is exposed, with a literal under the name of the root's content. -/
def exposedBox : Instruction :=
  { node := ⟨0⟩, target := ⟨"ui.Box"⟩, identity := some ⟨"box", true⟩
    properties := [(contentProperty, .literal (.string "none"))], styles := [], listeners := []
    content := [⟨⟨1⟩, ⟨"ui.Label"⟩, none, [], [], [], []⟩] }

/-- The toolbar is read back with its five nodes, and the box with its content beside the literal. -/
theorem toolbar_read_back :
    (∃ l, toolbar.linearize = .ok l ∧
      Outline.ofRootTokens (l.root.encodeRoot Name.text) = .ok (l.root.rootOutline Name.text) ∧
      (l.root.rootOutline Name.text).flatten.map (·.target) =
        [none, some "ui.Button", some "ui.Button", some "ui.Label", some "ui.Separator"] ∧
      (l.root.rootOutline Name.text).flatten.map (·.identity) =
        [none, some ("id", "save"), some ("_id", "$ID0"), some ("_id", "$ID1"), some ("_id", "$ID2")]) ∧
      (∀ p ∈ exposedBox.properties, isContentSequence p = false) ∧
      Outline.ofRootTokens (exposedBox.encodeRoot Name.text) = .ok (exposedBox.rootOutline Name.text) := by
  have hbox : ∀ p ∈ exposedBox.properties, isContentSequence p = false := by decide
  refine ⟨⟨_, rfl, ((encoded_read_back Name.text).2.2 toolbar _ rfl).2, ?_, ?_⟩, hbox,
    (encoded_read_back Name.text).2.1 exposedBox hbox⟩
  · rfl
  · rfl

end Lowering
