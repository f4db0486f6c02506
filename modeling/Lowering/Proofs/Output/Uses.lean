import Lowering.Output.ClassOutput
import Lowering.Proofs.Dependency.Mentions
import Lowering.Proofs.Output.EncodedTree

/-! The names in the code of a class.

Each part of the code shows some names: those of types, those in the signatures of methods
and what its expressions use. `Shows` says so of all names but that of the class itself,
which stands nearly everywhere, and is put together as the code is. -/
namespace Lowering.ClassPlan

/-- Besides the name of the class, a layout uses the given types, types of signatures, and
what the code of the expressions uses. -/
def Shows (p : ClassPlan) (l : Layout) (types signed : List Name) (es : List Expr) : Prop :=
  ∀ x, x ≠ p.self → x ≠ .quoted p.decl.name → (x ∈ l.uses ↔
    x ∈ types.map (.name .support) ∨ x ∈ signed.map (.name .signature) ∨ x ∈ exprUses p.scope es)

variable {p : ClassPlan} {l l' : Layout} {types types' signed signed' : List Name}
  {es es' : List Expr}

/-! ### Putting together -/

theorem Shows.nil : p.Shows [] [] [] [] := by
  intro x _ _
  simp [exprUses]

theorem Shows.append (h : p.Shows l types signed es) (h' : p.Shows l' types' signed' es') :
    p.Shows (l ++ l') (types ++ types') (signed ++ signed') (es ++ es') := by
  intro x hself hquoted
  rw [Layout.uses_append, List.mem_append, h x hself hquoted, h' x hself hquoted, List.map_append,
    List.map_append, exprUses_append, List.mem_append, List.mem_append, List.mem_append]
  apply Iff.of_eq
  ac_rfl

theorem Shows.flatMap {α : Type} {items : List α} {layout : α → Layout} {types signed : α → List Name}
    {es : α → List Expr} (h : ∀ a ∈ items, p.Shows (layout a) (types a) (signed a) (es a)) :
    p.Shows (items.flatMap layout) (items.flatMap types) (items.flatMap signed) (items.flatMap es) := by
  induction items with
  | nil => exact .nil
  | cons a rest ih =>
    obtain ⟨ha, hrest⟩ := List.forall_mem_cons.mp h
    exact ha.append (ih hrest)

theorem Shows.congr (h : p.Shows l types signed es) (htypes : ∀ n, n ∈ types ↔ n ∈ types')
    (hsigned : ∀ n, n ∈ signed ↔ n ∈ signed') (hexprs : ∀ e, e ∈ es ↔ e ∈ es') :
    p.Shows l types' signed' es' := by
  intro x hself hquoted
  rw [h x hself hquoted]
  simp only [List.mem_map, exprUses, List.mem_flatMap, htypes, hsigned, hexprs]

theorem Shows.nested (h : p.Shows l types signed es) : p.Shows (Layout.nested l) types signed es := by
  intro x hself hquoted
  rw [Layout.uses_nested]
  exact h x hself hquoted

/-! ### Tags -/

@[simp] theorem uses_plainTag (text : String) : Code.uses (plainTag text) = [] := Code.uses_ofText text

@[simp] theorem uses_typeTag (tag : String) (type : Code) (after : String) :
    Code.uses (typeTag tag type after) = type.uses := Code.uses_between ..

@[simp] theorem uses_tag (v : Visibility) : Code.uses v.tag = [] := by
  cases v <;> exact uses_plainTag _

@[simp] theorem uses_fieldTags (v : Visibility) : v.fieldTags.flatMap Code.uses = [] := by
  unfold Visibility.fieldTags
  split
  · rfl
  · simp

@[simp] theorem uses_self (c : Code) : Code.uses (p.self :: c) = p.self :: Code.uses c := rfl

@[simp] theorem uses_prototype (name : String) : Code.uses (p.prototype name) = [p.self] := rfl

/-! ### Fields -/

@[simp] theorem uses_initialValue (type : TypeRef) (initializer : Option Expr) :
    Code.uses (p.initialValue type initializer) = exprUses p.scope initializer.toList := by
  cases initializer <;> simp [initialValue, exprUses]

@[simp] theorem uses_assignFirst (target : Code) (type : TypeRef) (initializer : Option Expr) :
    Layout.uses (p.assignFirst target type initializer) =
      target.uses ++ exprUses p.scope initializer.toList := by
  simp [assignFirst]

theorem shows_fieldLayout (f : Field) :
    p.Shows (p.fieldLayout f) f.type.declared?.toList [] f.initializer.toList := by
  intro x hself hquoted
  simp [fieldLayout]

theorem shows_storageLayout (a : AccessorPair) :
    p.Shows (p.storageLayout a) a.type.declared?.toList [] a.initializer.toList := by
  intro x hself hquoted
  simp [storageLayout]

theorem shows_bindingLayout (b : BindingField) : p.Shows (bindingLayout b) [b.target] [] [] := by
  intro x hself hquoted
  simp [bindingLayout, exprUses]

theorem shows_staticFieldLayout (f : Field) :
    p.Shows (p.staticFieldLayout f) f.type.declared?.toList [] f.initializer.toList := by
  intro x hself hquoted
  simp [staticFieldLayout, hself]

/-! ### Trees -/

theorem shows_graphLayout (l : Linearized) :
    p.Shows (p.graphLayout l) ((l.root.children.flatMap Instruction.flatten).map (·.target)) []
      (l.root.flatten.flatMap (·.exprs)) := by
  intro x hself hquoted
  have huses : Layout.uses (p.graphLayout l) = tokenUses p.scope (l.root.encodeRoot id) := by
    simp [graphLayout, List.flatMap_map, tokenUses]
  rw [huses, Instruction.mem_tokenUses_encodeRoot, Instruction.flatten_eq, List.flatMap_cons,
    exprUses_append, exprUses_flatMap, List.mem_append, List.map_nil, List.map_map]
  simp only [Instruction.uses, List.mem_cons, List.mem_map, List.mem_flatMap, Function.comp_apply]
  grind

theorem shows_markupLayout (l : Linearized) :
    p.Shows (p.markupLayout l)
      (l.bindings.map (·.target) ++ (l.root.children.flatMap Instruction.flatten).map (·.target)) []
      (l.root.flatten.flatMap (·.exprs)) := by
  have hbindings := Shows.flatMap fun b (_ : b ∈ l.bindings) => shows_bindingLayout (p := p) b
  have htypes : (l.bindings.flatMap fun b => [b.target]) = l.bindings.map (·.target) := by
    rw [List.map_eq_flatMap]
  have hnone {α : Type} : (l.bindings.flatMap fun _ => ([] : List α)) = [] := by
    simp
  rw [htypes, hnone, hnone] at hbindings
  exact hbindings.append (shows_graphLayout l)

/-! ### The constructor -/

theorem shows_constructorOpening : p.Shows p.constructorOpening [] [] [] := by
  intro x hself hquoted
  simp [constructorOpening, hself]

theorem shows_inheritance : p.Shows p.inheritance p.decl.base.toList [] [] := by
  intro x hself hquoted
  simp [inheritance, hself, eq_comm]

theorem shows_constructorBody :
    p.Shows p.constructorBody
      ((p.decl.fields.filter (!·.isStatic)).flatMap (·.type.declared?.toList) ++
        (p.accessors.filter (·.origin = .declared)).flatMap (·.type.declared?.toList) ++
        p.linearized.toList.flatMap fun l =>
          l.bindings.map (·.target) ++ (l.root.children.flatMap Instruction.flatten).map (·.target))
      []
      ((p.decl.fields.filter (!·.isStatic)).flatMap (·.initializer.toList) ++
        (p.accessors.filter (·.origin = .declared)).flatMap (·.initializer.toList) ++
        p.linearized.toList.flatMap fun l => l.root.flatten.flatMap (·.exprs)) := by
  have hbase : p.Shows
      (if p.decl.base.isSome then Layout.line [p.self, .verbatim ".base(this, 'constructor');"] else [])
      [] [] [] := by
    intro x hself hquoted
    split <;> simp [hself]
  have hfields := Shows.flatMap fun f (_ : f ∈ p.decl.fields.filter (!·.isStatic)) =>
    shows_fieldLayout (p := p) f
  have hpairs := Shows.flatMap fun a (_ : a ∈ p.accessors.filter (·.origin = .declared)) =>
    shows_storageLayout (p := p) a
  have hmarkup := Shows.flatMap fun l (_ : l ∈ p.linearized.toList) => shows_markupLayout (p := p) l
  have h := ((hbase.append hfields).append hpairs).append hmarkup
  exact h.congr (by simp) (by simp) (by simp)

theorem shows_constructorLayout :
    p.Shows p.constructorLayout
      (p.decl.base.toList ++ p.decl.interfaces ++
        (p.decl.fields.filter (!·.isStatic)).flatMap (·.type.declared?.toList) ++
        (p.accessors.filter (·.origin = .declared)).flatMap (·.type.declared?.toList) ++
        p.linearized.toList.flatMap fun l =>
          l.bindings.map (·.target) ++ (l.root.children.flatMap Instruction.flatten).map (·.target))
      []
      ((p.decl.fields.filter (!·.isStatic)).flatMap (·.initializer.toList) ++
        (p.accessors.filter (·.origin = .declared)).flatMap (·.initializer.toList) ++
        p.linearized.toList.flatMap fun l => l.root.flatten.flatMap (·.exprs)) := by
  have hdoc : p.Shows (Layout.doc (plainTag "@constructor" ::
      p.decl.base.toList.map (fun b => typeTag "@extends" [.name .support b] "") ++
      p.decl.interfaces.map fun n => typeTag "@implements" [.name .support n] ""))
      (p.decl.base.toList ++ p.decl.interfaces) [] [] := by
    intro x hself hquoted
    simp [List.flatMap_map, eq_comm]
  have hclosing : p.Shows (Layout.say "\x7d;") [] [] [] := by
    intro x hself hquoted
    simp
  have h := (((hdoc.append shows_constructorOpening).append shows_constructorBody.nested).append
    hclosing).append shows_inheritance
  refine h.congr (fun n => ?_) (by simp) (by simp)
  simp only [List.mem_append, List.not_mem_nil, or_false]
  grind


/-! ### Description -/

theorem shows_exportLayout : p.Shows p.exportLayout [] [] [] := by
  intro x hself hquoted
  unfold exportLayout
  split
  · simp [hself, hquoted]
  · simp

theorem uses_classInfo (info : ClassInfo) : Code.uses info.code = info.interfaces.map (.name .support) := by
  have hnames : (info.names.map (·.code)).flatMap Code.uses = [] := by
    rw [List.flatMap_map]
    exact List.flatMap_eq_nil_iff.mpr fun _ _ => rfl
  have hinterfaces : Code.uses info.interfaceList = info.interfaces.map (.name .support) := by
    rw [ClassInfo.interfaceList, Code.uses_between, Code.uses_joined, List.flatMap_map, List.map_eq_flatMap]
    rfl
  rw [ClassInfo.code, Code.uses_append, Code.uses_append, Code.uses_between, Code.uses_joined, hnames]
  split
  next h =>
    rw [List.isEmpty_iff.mp h]
    rfl
  next =>
    rw [hinterfaces]
    simp

theorem shows_classInfoLayout : p.Shows p.classInfoLayout p.symbol.declaration.interfaces [] [] := by
  intro x hself hquoted
  simp [classInfoLayout, hself, uses_classInfo, classInfo]

/-- Descriptions of members are texts. -/
theorem uses_mapLayout (key : String) (m : OrderedMap MemberInfo) (after : String) :
    Layout.uses (Reflection.mapLayout key m after) = [] := by
  have hentry : ∀ e ∈ m.entries, Code.uses (Reflection.entry e.1 e.2) = [] := fun _ _ => rfl
  unfold Reflection.mapLayout
  split
  · simp
  · simpa [List.flatMap_map] using hentry

theorem shows_reflectionLayout : p.Shows p.reflectionLayout [] [] [] := by
  intro x hself hquoted
  simp [reflectionLayout, Reflection.layout, uses_mapLayout, hself]

/-! ### Members -/

/-- A body uses what its expressions use. -/
@[simp] theorem uses_bodyLayout (body : List Stmt) :
    Layout.uses (p.bodyLayout body) = exprUses p.scope (bodyExprs body) := by
  rw [bodyLayout, Layout.uses_nested, Layout.uses_flatMap, bodyExprs, List.filterMap_eq_flatMap_toList,
    exprUses, List.flatMap_assoc]
  simp

theorem shows_handlerLayout (h : Handler) :
    p.Shows (p.handlerLayout h) (h.eventType.toList.flatMap (·.declared?.toList)) []
      (bodyExprs h.body) := by
  intro x hself hquoted
  have htype : Code.uses ((h.eventType.map (·.code .support)).getD [.verbatim "*"]) =
      (h.eventType.toList.flatMap (·.declared?.toList)).map (.name .support) := by
    cases h.eventType <;> simp
  simp [handlerLayout, methodHead, hself, htype]

theorem shows_accessorLayout (a : AccessorPair) :
    p.Shows (p.accessorLayout a)
      (a.type.declared?.toList ++ if a.bindable then [p.options.changeEventClass] else []) [] [] := by
  intro x hself hquoted
  cases hbindable : a.bindable <;>
    simp [accessorLayout, getterLayout, setterLayout, methodHead, storeLayout, announceLayout, hself, hbindable]

/-- The classes in the signature of a method. -/
theorem uses_signatureTags (m : Method) :
    m.signatureTags.flatMap Code.uses =
      (m.params.flatMap (·.type.declared?.toList) ++ m.returnType.declared?.toList).map
        (.name .signature) := by
  have hparams : (m.params.map fun p => typeTag "@param" (p.type.code .signature) (" " ++ p.name)).flatMap
      Code.uses = (m.params.flatMap (·.type.declared?.toList)).map (.name .signature) := by
    simp [List.flatMap_map, List.map_flatMap]
  rw [Method.signatureTags, List.flatMap_append, hparams, List.map_append]
  split
  next hvoid =>
    rw [hvoid]
    rfl
  next => simp

theorem shows_methodLayout (m : Method) :
    p.Shows (p.methodLayout m) []
      (m.params.flatMap (·.type.declared?.toList) ++ m.returnType.declared?.toList)
      (bodyExprs m.body) := by
  intro x hself hquoted
  have htarget : Code.uses (p.methodTarget m) = [p.self] := by
    unfold methodTarget
    split <;> rfl
  simp only [methodLayout, Layout.uses_append, Layout.uses_gap, Layout.uses_doc, List.flatMap_cons,
    uses_tag, uses_signatureTags, Layout.uses_line, Code.uses_append, htarget, uses_bodyLayout]
  simp [hself, or_assoc]

theorem shows_abstractMethod (m : Method) :
    p.Shows (p.abstractMethod m) []
      (m.params.flatMap (·.type.declared?.toList) ++ m.returnType.declared?.toList) [] := by
  intro x hself hquoted
  have hdoc : Layout.uses (if m.signatureTags.isEmpty then [] else Layout.doc m.signatureTags) =
      m.signatureTags.flatMap Code.uses := by
    split
    next h =>
      rw [List.isEmpty_iff.mp h]
      rfl
    next => exact Layout.uses_doc _
  simp only [abstractMethod, Layout.uses_append, Layout.uses_gap, hdoc, uses_signatureTags,
    Layout.uses_line, Code.uses_append, uses_prototype]
  simp [hself]

theorem shows_membersLayout :
    p.Shows p.membersLayout
      ((p.decl.fields.filter (·.isStatic)).flatMap (·.type.declared?.toList) ++
        p.handlers.flatMap (fun h => h.eventType.toList.flatMap (·.declared?.toList)) ++
        p.accessors.flatMap fun a =>
          a.type.declared?.toList ++ if a.bindable then [p.options.changeEventClass] else [])
      p.decl.signatureNames
      ((p.decl.fields.filter (·.isStatic)).flatMap (·.initializer.toList) ++
        p.handlers.flatMap (fun h => bodyExprs h.body) ++
        p.decl.methods.flatMap fun m => bodyExprs m.body) := by
  have hfields := Shows.flatMap fun f (_ : f ∈ p.decl.fields.filter (·.isStatic)) =>
    shows_staticFieldLayout (p := p) f
  have hhandlers := Shows.flatMap fun h (_ : h ∈ p.handlers) => shows_handlerLayout (p := p) h
  have haccessors := Shows.flatMap fun a (_ : a ∈ p.accessors) => shows_accessorLayout (p := p) a
  have hmethods := Shows.flatMap fun m (_ : m ∈ p.decl.methods) => shows_methodLayout (p := p) m
  have h := ((hfields.append hhandlers).append haccessors).append hmethods
  refine h.congr (by simp) (fun n => ?_) (by simp)
  simp [ClassDecl.signatureNames]

theorem shows_interfaceLayout :
    p.Shows p.interfaceLayout p.decl.interfaces p.decl.signatureNames [] := by
  have hdoc : p.Shows (Layout.doc (plainTag "@interface" ::
      p.decl.interfaces.map fun n => typeTag "@extends" [.name .support n] ""))
      p.decl.interfaces [] [] := by
    intro x hself hquoted
    simp [List.flatMap_map, eq_comm]
  have hclosing : p.Shows (Layout.say "\x7d;") [] [] [] := by
    intro x hself hquoted
    simp
  have hmethods := Shows.flatMap fun m (_ : m ∈ p.decl.methods) => shows_abstractMethod (p := p) m
  have h := ((hdoc.append shows_constructorOpening).append hclosing).append hmethods
  refine h.congr (by simp) (fun n => ?_) (by simp)
  simp [ClassDecl.signatureNames]

/-! ### Classes and interfaces -/

/-- The types in the code of a class. -/
def codeTypes (p : ClassPlan) : List Name :=
  p.decl.base.toList ++ p.decl.interfaces ++ p.symbol.declaration.interfaces ++
    p.decl.fields.flatMap (·.type.declared?.toList) ++
    (p.accessors.flatMap fun a =>
      a.type.declared?.toList ++ if a.bindable then [p.options.changeEventClass] else []) ++
    p.handlers.flatMap (fun h => h.eventType.toList.flatMap (·.declared?.toList)) ++
    p.linearized.toList.flatMap fun l =>
      l.bindings.map (·.target) ++ (l.root.children.flatMap Instruction.flatten).map (·.target)

/-- The expressions in the code of a class. -/
def codeExprs (p : ClassPlan) : List Expr :=
  p.decl.fields.flatMap (·.initializer.toList) ++
    (p.accessors.filter (·.origin = .declared)).flatMap (·.initializer.toList) ++
    p.decl.methods.flatMap (fun m => bodyExprs m.body) ++
    p.handlers.flatMap (fun h => bodyExprs h.body) ++
    p.linearized.toList.flatMap fun l => l.root.flatten.flatMap (·.exprs)

/-- What the fields have, those of the instances or those of the class have. -/
theorem mem_fields_flatMap {α : Type} {a : α} (fields : List Field) (f : Field → List α) :
    a ∈ fields.flatMap f ↔
      a ∈ (fields.filter (!·.isStatic)).flatMap f ∨ a ∈ (fields.filter (·.isStatic)).flatMap f := by
  simp only [List.mem_flatMap, List.mem_filter, Bool.not_eq_true']
  constructor
  · intro hright
    obtain ⟨field, hfield, ha⟩ := hright
    cases hstatic : field.isStatic with
    | true => exact .inr ⟨field, ⟨hfield, hstatic⟩, ha⟩
    | false => exact .inl ⟨field, ⟨hfield, hstatic⟩, ha⟩
  · intro hright
    rcases hright with ⟨field, ⟨hfield, -⟩, ha⟩ | ⟨field, ⟨hfield, -⟩, ha⟩
    · exact ⟨field, hfield, ha⟩
    · exact ⟨field, hfield, ha⟩

/-- The code of a class shows its types, its signatures and its expressions. -/
theorem shows_layout_concrete (hkind : p.decl.kind = .concrete) :
    p.Shows p.layout p.codeTypes p.decl.signatureNames p.codeExprs := by
  have h := (((shows_constructorLayout.append shows_exportLayout).append shows_classInfoLayout).append
    shows_membersLayout).append (shows_reflectionLayout (p := p))
  rw [layout, hkind]
  refine h.congr (fun n => ?_) (by simp) (fun e => ?_)
  · have hpairs : n ∈ (p.accessors.filter (·.origin = .declared)).flatMap (·.type.declared?.toList) →
        n ∈ p.accessors.flatMap fun a =>
          a.type.declared?.toList ++ if a.bindable then [p.options.changeEventClass] else [] := by
      intro hn
      obtain ⟨a, ha, hn⟩ := List.mem_flatMap.mp hn
      exact List.mem_flatMap.mpr ⟨a, (List.mem_filter.mp ha).1, List.mem_append_left _ hn⟩
    have hfields := mem_fields_flatMap (a := n) p.decl.fields (·.type.declared?.toList)
    simp only [codeTypes, List.mem_append, List.not_mem_nil, or_false, hfields]
    clear h hkind
    grind
  · have hfields := mem_fields_flatMap (a := e) p.decl.fields (·.initializer.toList)
    simp only [codeExprs, List.mem_append, List.not_mem_nil, or_false, hfields]
    clear h hkind
    grind

/-- That of an interface shows the interfaces that it extends and its signatures. -/
theorem shows_layout_interface (hkind : p.decl.kind = .interface) :
    p.Shows p.layout (p.decl.interfaces ++ p.symbol.declaration.interfaces) p.decl.signatureNames [] := by
  have h := ((shows_interfaceLayout.append shows_exportLayout).append shows_classInfoLayout).append
    (shows_reflectionLayout (p := p))
  rw [layout, hkind]
  exact h.congr (by simp) (by simp) (by simp)

end Lowering.ClassPlan
