import Lowering.Proofs.Code.Spelling
import Lowering.Proofs.Output.Levels
import Lowering.Proofs.Output.Stages
import Lowering.Proofs.Symbol.Lookup

/-! What reflection shows of a class.

The surface of a class is what everyone may use of its instances. Unless the options ask for private
members, its reflection is made from the surface (`reflection_eq`), whatever else the class has and
whatever names that has; so classes with one surface cannot be told apart by their reflection, nor
by the text of it (`hidden_members_unreflected`). -/
namespace Lowering

/-- What everyone may use of the instances of a class, in order. -/
structure Surface where
  fields : List (String × TypeRef)
  /-- The properties with a getter and a setter. -/
  properties : List (String × TypeRef)
  /-- Each with the types of its parameters and that of its result. -/
  methods : List (String × List TypeRef × TypeRef)
deriving DecidableEq, Repr

/-- The surface of a class with the given instructions: what it declares for everyone, and a property
for each identity that the source gives. -/
def ClassDecl.surface (c : ClassDecl) (l : Option Linearized) : Surface where
  fields := (c.fields.filter fun f => !f.isStatic && f.visibility = .everyone).map fun f => (f.name, f.type)
  properties :=
    (c.accessors.filter fun a => a.visibility = .everyone).map (fun a => (a.name, a.type)) ++
      ((l.map (·.exposed)).getD []).map fun b => (b.name, .declared b.target)
  methods := (c.methods.filter fun m => !m.isStatic && m.visibility = .everyone).map fun m =>
    (m.name, m.params.map (·.type), m.returnType)

/-! ### From surfaces to reflection -/

namespace Surface

variable (s : Surface) (owner : Name)

def shownFields : List (String × MemberInfo) :=
  s.fields.map fun (name, type) => (name, { type := type.text, declaredBy := owner })

def shownProperties : List (String × MemberInfo) :=
  s.properties.map fun (name, type) =>
    (name, { type := type.text, declaredBy := owner, access := some .readwrite })

def shownMethods : List (String × MemberInfo) :=
  s.methods.map fun (name, params, type) =>
    (name, { type := type.text, declaredBy := owner, parameters := params.map (·.text) })

/-- The constructor of a class goes by the simple name of the class, and has no type. -/
def shownConstructor (kind : Kind) : List (String × MemberInfo) :=
  if kind = .concrete then [(owner.simple, { type := "", declaredBy := owner })] else []

/-- The reflection of a class of which nothing is known but its surface, its symbol and its kind. -/
def reflection (symbol : Symbol) (kind : Kind) : Reflection :=
  if symbol.capabilities.reflectable then {
    fields := .ofList (s.shownFields symbol.name)
    accessors := .ofList (s.shownProperties symbol.name)
    methods := .ofList (shownConstructor symbol.name kind ++ s.shownMethods symbol.name) }
  else {}

end Surface

namespace ClassPlan

variable {p : ClassPlan} (hprivate : p.options.reflectPrivate = false)
include hprivate

/-- The members that are described are those that everyone may use. -/
theorem map_describes {α β : Type} (items : List α) (known : α → Bool) (visibility : α → Visibility)
    (entry : α → Visibility → β) :
    ((items.filter fun a => known a && p.describes (visibility a)).map fun a => entry a (visibility a)) =
      (items.filter fun a => known a && visibility a = .everyone).map fun a => entry a .everyone := by
  have hdescribes (v : Visibility) : p.describes v = decide (v = .everyone) := by
    rw [describes, hprivate, Bool.or_false]
  simp only [hdescribes]
  refine List.map_congr_left fun a ha => ?_
  obtain ⟨-, hkept⟩ := List.mem_filter.mp ha
  rw [Bool.and_eq_true, decide_eq_true_eq] at hkept
  rw [hkept.2]

theorem onRequest_eq_nil (members : List (String × MemberInfo)) : p.onRequest members = [] := by
  rw [onRequest, hprivate]
  rfl

theorem reflectedFields_eq : p.reflectedFields = (p.decl.surface p.linearized).shownFields p.decl.name := by
  have hshown := map_describes hprivate p.decl.fields (!·.isStatic) (·.visibility) fun f v =>
    (f.name, p.described f.type.text v)
  rw [Surface.shownFields, ClassDecl.surface, List.map_map]
  exact hshown

theorem reflectedMethods_eq : p.reflectedMethods = (p.decl.surface p.linearized).shownMethods p.decl.name := by
  have hshown := map_describes hprivate p.decl.methods (!·.isStatic) (·.visibility) fun m v =>
    (m.name, { p.described m.returnType.text v with
      parameters := m.params.map fun q : Param => q.type.text })
  rw [Surface.shownMethods, ClassDecl.surface, List.map_map]
  simp only [Function.comp_def, List.map_map]
  exact hshown

end ClassPlan

namespace ClassDecl

variable {c : ClassDecl} {t : SymbolTable} {o : Options} {p : ClassPlan}

theorem Planned.symbol_name (h : c.Planned t o p) : p.symbol.name = c.name :=
  SymbolTable.name_of_find? h.symbol

/-- The properties are those of the pairs that everyone may use, which those of identities all are. -/
theorem Planned.properties_eq (h : c.Planned t o p) :
    (c.surface p.linearized).properties =
      (p.accessors.filter fun a => a.visibility = .everyone).map fun a => (a.property, a.type) := by
  have hidentities (exposed : List BindingField) :
      ((exposed.map AccessorPair.ofIdentity).filter fun a => a.visibility = .everyone) =
        exposed.map .ofIdentity := by
    refine List.filter_eq_self.mpr fun a ha => ?_
    obtain ⟨b, -, rfl⟩ := List.mem_map.mp ha
    rfl
  rw [h.accessors, List.filter_append, hidentities, declaredPairs, List.filter_map, List.map_append,
    List.map_map, List.map_map]
  rfl

section
variable (h : c.Planned t o p) (hprivate : o.reflectPrivate = false)
include h hprivate

theorem Planned.reflectedAccessors_eq :
    p.reflectedAccessors = (c.surface p.linearized).shownProperties c.name := by
  have hproperties := h.properties_eq
  obtain rfl := h.decl
  obtain rfl := h.options
  have hshown := ClassPlan.map_describes hprivate p.accessors (fun _ => true) (·.visibility) fun a v =>
    (a.property, { p.described a.type.text v with access := some .readwrite })
  rw [Surface.shownProperties, hproperties, List.map_map]
  exact hshown

/-- Unless private members are asked for, only the surface of a class takes part in its reflection. -/
theorem Planned.reflection_eq :
    p.reflection = (c.surface p.linearized).reflection p.symbol c.kind := by
  have haccessors := h.reflectedAccessors_eq hprivate
  have hname := h.symbol_name
  obtain rfl := h.decl
  obtain rfl := h.options
  have hconstructor : p.reflectedConstructor = Surface.shownConstructor p.decl.name p.decl.kind := by
    rw [ClassPlan.reflectedConstructor, hname]
    rfl
  have hnothing (members : List (String × MemberInfo)) : p.onRequest members = [] :=
    ClassPlan.onRequest_eq_nil hprivate members
  rw [ClassPlan.reflection, Surface.reflection, ClassPlan.reflectedFields_eq hprivate, haccessors,
    hconstructor, ClassPlan.reflectedMethods_eq hprivate, hnothing, hnothing, List.append_nil,
    List.append_nil, hname]

end

end ClassDecl

/-! ### The text -/

/-- What the text of a class says of its reflection. -/
def ClassPlan.reflectionText (p : ClassPlan) (t : SymbolTable) : String :=
  p.reflectionLayout.text t.spelling 0

/-- Of the names in it only that of the class itself is spelled by the table. -/
theorem ClassPlan.reflectionText_congr {p q : ClassPlan} {t u : SymbolTable}
    (hreflection : p.reflection = q.reflection) (hname : p.decl.name = q.decl.name)
    (hoptions : p.options = q.options) (hspelling : t.spelling p.decl.name = u.spelling p.decl.name) :
    p.reflectionText t = q.reflectionText u := by
  have hlayout : p.reflectionLayout = q.reflectionLayout := by
    rw [reflectionLayout, reflectionLayout, prototype, prototype, self, self, hreflection, hname, hoptions]
  rw [reflectionText, reflectionText, ← hlayout]
  refine Layout.text_congr (fun x hx => ?_) 0
  by_cases hself : x = p.self
  · subst hself
    exact hspelling
  by_cases hquoted : x = .quoted p.decl.name
  · subst hquoted
    exact congrArg Text.quote hspelling
  · simpa using (shows_reflectionLayout x hself hquoted).mp hx

/-- **The text of a class ends with its reflection. Without private reflection two classes of one
name, kind and symbol have one reflection and one text of it as soon as they have one surface,
whatever else they have. And what is not reflectable describes nothing, whatever the options.** -/
theorem hidden_members_unreflected (c : ClassDecl) (t : SymbolTable) (o : Options) (x : ClassOutput)
    (hx : c.emit t o = .ok x) :
    (∃ front, x.text = front ++ x.plan.reflectionText t) ∧
      (o.reflectPrivate = false → ∀ (d : ClassDecl) (u : SymbolTable) (y : ClassOutput),
        d.emit u o = .ok y → c.name = d.name → c.kind = d.kind → x.plan.symbol = y.plan.symbol →
        c.surface x.plan.linearized = d.surface y.plan.linearized →
        x.plan.reflection = y.plan.reflection ∧ x.plan.reflectionText t = y.plan.reflectionText u) ∧
      (x.plan.symbol.capabilities.reflectable = false →
        x.plan.reflection.fields.entries = [] ∧ x.plan.reflection.accessors.entries = [] ∧
          x.plan.reflection.methods.entries = []) := by
  obtain ⟨p, hp, rfl⟩ := map_eq_ok.mp (c.emit_eq t o ▸ hx)
  have hc := ClassDecl.plan_eq_ok hp
  refine ⟨p.text_layout t.spelling, ?_, ?_⟩
  · intro hprivate d u y hy hname hkind hsymbol hsurface
    obtain ⟨q, hq, rfl⟩ := map_eq_ok.mp (d.emit_eq u o ▸ hy)
    have hd := ClassDecl.plan_eq_ok hq
    have hreflection : p.reflection = q.reflection := by
      rw [hc.reflection_eq hprivate, hd.reflection_eq hprivate, hkind]
      exact congrArg₂ (·.reflection · d.kind) hsurface hsymbol
    have hspelling : t.spelling p.decl.name = u.spelling p.decl.name := by
      rw [hc.decl, SymbolTable.spelling_of_find? hc.symbol, hname, SymbolTable.spelling_of_find? hd.symbol]
      exact congrArg Symbol.outputName hsymbol
    exact ⟨hreflection, ClassPlan.reflectionText_congr hreflection (by rw [hc.decl, hd.decl, hname])
      (hc.options.trans hd.options.symm) hspelling⟩
  · intro hreflectable
    have hnothing : p.reflection = {} := by
      rw [ClassPlan.reflection, hreflectable]
      rfl
    rw [hnothing]
    exact ⟨rfl, rfl, rfl⟩

/-- A cart with a label that the source names, a button whose click is handled, and a method of its
own that goes by the name of its constructor. -/
def markupCart : ClassDecl where
  name := ⟨"shop.Cart"⟩
  fields := [{ name := "total", type := .builtin "Number" },
    { name := "items", type := .builtin "Array", visibility := .owner },
    { name := "VERSION", type := .builtin "String", isStatic := true }]
  methods := [{ name := "Cart", visibility := .owner },
    { name := "add", params := [⟨"sku", .builtin "String"⟩], returnType := .builtin "Boolean" }]
  events := [{ node := ⟨2⟩, event := "click" }]
  tree := some {
    root := ⟨0⟩
    nodes := [{ key := ⟨0⟩, target := ⟨"ui.View"⟩, content := [⟨1⟩, ⟨2⟩] },
      { key := ⟨1⟩, target := ⟨"ui.Label"⟩, id := some "label" },
      { key := ⟨2⟩, target := ⟨"ui.Button"⟩ }] }

/-- A cart with the same surface and nothing else. -/
def plainCart : ClassDecl where
  name := ⟨"shop.Cart"⟩
  fields := [{ name := "total", type := .builtin "Number" }]
  accessors := [{ name := "label", type := .declared ⟨"ui.Label"⟩ }]
  methods := [{ name := "add", params := [⟨"sku", .builtin "String"⟩], returnType := .builtin "Boolean" }]

/-- The plain cart, when it is not reflectable. -/
def mutedCart : ClassDecl := { plainCart with flags := { reflectable := false } }

/-- The program of a cart, beside what carts use, and its table. -/
def shop (cart : ClassDecl) : Program where
  foreign := [{ name := ⟨"ui.Label"⟩ }, { name := ⟨"ui.Button"⟩ }]
  modules := [{ name := ⟨"shop.Cart"⟩, classes := [cart] }]

def shopTable (cart : ClassDecl) : SymbolTable :=
  (SymbolTable.ofProgram (shop cart) .dotted).toOption.getD default

/-- The button and its handler, the private members and the static one leave no trace. And a cart
that is not reflectable describes nothing, even where private members are asked for. -/
theorem markupCart_reflected_as_plain :
    (∃ t x y, SymbolTable.ofProgram (shop markupCart) .dotted = .ok t ∧
      markupCart.emit t {} = .ok x ∧ plainCart.emit t {} = .ok y ∧ x.plan.handlers.length = 1 ∧
      y.plan.reflection.fields.keys = ["total"] ∧ y.plan.reflection.accessors.keys = ["label"] ∧
      y.plan.reflection.methods.keys = ["Cart", "add"] ∧ x.plan.reflection = y.plan.reflection ∧
      x.plan.reflectionText t = y.plan.reflectionText t) ∧
    ∃ t x, SymbolTable.ofProgram (shop mutedCart) .dotted = .ok t ∧
      mutedCart.emit t { reflectPrivate := true } = .ok x ∧
      x.plan.symbol.capabilities.reflectable = false ∧ x.plan.reflection.fields.entries = [] := by
  constructor
  · have ht : SymbolTable.ofProgram (shop markupCart) .dotted = .ok (shopTable markupCart) := rfl
    have hmentions : markupCart.mentions = [⟨⟨"ui.Label"⟩, none⟩, ⟨⟨"ui.Button"⟩, none⟩] := by
      cbv
    obtain ⟨needed, hneeded⟩ : ∃ needed, markupCart.dependencies (shopTable markupCart) {} = .ok needed := by
      rw [ClassDecl.dependencies, hmentions]
      exact ⟨_, rfl⟩
    have hplan : markupCart.plan (shopTable markupCart) {} = .ok _ :=
      bind_eq_ok.mpr ⟨_, rfl, bind_eq_ok.mpr ⟨_, hneeded, rfl⟩⟩
    have hx : markupCart.emit (shopTable markupCart) {} = .ok _ :=
      (markupCart.emit_eq _ _).trans (map_eq_ok.mpr ⟨_, hplan, rfl⟩)
    have hy : plainCart.emit (shopTable markupCart) {} = .ok _ := rfl
    obtain ⟨-, hsame, -⟩ := hidden_members_unreflected markupCart _ {} _ hx
    obtain ⟨hreflection, htext⟩ := hsame rfl plainCart _ _ hy rfl rfl rfl rfl
    exact ⟨_, _, _, ht, hx, hy, rfl, rfl, rfl, rfl, hreflection, htext⟩
  · have ht : SymbolTable.ofProgram (shop mutedCart) .dotted = .ok (shopTable mutedCart) := rfl
    have hx : mutedCart.emit (shopTable mutedCart) { reflectPrivate := true } = .ok _ := rfl
    obtain ⟨-, -, hnothing⟩ := hidden_members_unreflected mutedCart _ _ _ hx
    obtain ⟨hfields, -⟩ := hnothing rfl
    exact ⟨_, _, ht, hx, rfl, hfields⟩

end Lowering
