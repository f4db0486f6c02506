import Lowering.Output.ClassOutput

/-! Levels of nesting.

Each part of a class is written in steps that lead back to the level at which they start. What comes
behind it is therefore written as it would be without it (`text_append`), and the reflection of a
class, which comes last, is at the outermost level (`text_layout`). -/
namespace Lowering

/-! ### Layouts -/

namespace Layout

variable (depth : Nat)

@[simp] theorem depthAfter_nil : depthAfter depth [] = depth := rfl

@[simp] theorem depthAfter_append (l l' : Layout) :
    depthAfter depth (l ++ l') = depthAfter (depthAfter depth l) l' := List.foldl_append

@[simp] theorem depthAfter_ite (c : Prop) [Decidable c] (l l' : Layout) :
    depthAfter depth (if c then l else l') = if c then depthAfter depth l else depthAfter depth l' :=
  apply_ite ..

@[simp] theorem depthAfter_flatMap {α : Type} {items : List α} {layout : α → Layout}
    (h : ∀ a depth, depthAfter depth (layout a) = depth) : depthAfter depth (items.flatMap layout) = depth := by
  induction items with
  | nil => rfl
  | cons a rest ih => rw [List.flatMap_cons, depthAfter_append, h, ih]

@[simp] theorem depthAfter_line (c : Code) : depthAfter depth (line c) = depth := rfl

@[simp] theorem depthAfter_say (text : String) : depthAfter depth (say text) = depth := rfl

@[simp] theorem depthAfter_gap (n : Nat) : depthAfter depth (gap n) = depth := by
  induction n with
  | zero => rfl
  | succ n ih => exact ih

@[simp] theorem depthAfter_nested (l : Layout) : depthAfter depth (nested l) = depthAfter (depth + 1) l - 1 := by
  show depthAfter (depth + 1) (l ++ [.dedent]) = _
  rw [depthAfter_append]
  rfl

@[simp] theorem depthAfter_listed (items : List Code) : depthAfter depth (listed items) = depth := by
  match items with
  | [] => rfl
  | [c] => rfl
  | c :: d :: rest => exact depthAfter_listed (d :: rest)

@[simp] theorem depthAfter_doc (tags : List Code) : depthAfter depth (doc tags) = depth := by
  simp [doc, tagLine]

/-- What is behind a layout is written from the level on at which that ends. -/
theorem text_append (spelling : Name → String) (l l' : Layout) :
    text spelling depth (l ++ l') = text spelling depth l ++ text spelling (depthAfter depth l) l' := by
  have htexts : texts spelling depth (l ++ l') =
      texts spelling depth l ++ texts spelling (depthAfter depth l) l' := by
    induction l generalizing depth with
    | nil => rfl
    | cons step rest ih => exact congrArg (_ :: ·) (ih _)
  rw [text, htexts, String.join_append]
  rfl

end Layout

/-! ### Classes -/

namespace ClassPlan

open Layout

variable (p : ClassPlan) (depth : Nat)

@[simp] theorem depthAfter_fieldLayout (f : Field) : depthAfter depth (p.fieldLayout f) = depth := by
  simp [fieldLayout, assignFirst]

@[simp] theorem depthAfter_storageLayout (a : AccessorPair) :
    depthAfter depth (p.storageLayout a) = depth := by
  simp [storageLayout, assignFirst]

@[simp] theorem depthAfter_bindingLayout (b : BindingField) :
    depthAfter depth (bindingLayout b) = depth := by
  simp [bindingLayout]

@[simp] theorem depthAfter_markupLayout (l : Linearized) : depthAfter depth (p.markupLayout l) = depth := by
  simp [markupLayout, graphLayout]

@[simp] theorem depthAfter_inheritance : depthAfter depth p.inheritance = depth :=
  depthAfter_flatMap depth fun _ _ => rfl

@[simp] theorem depthAfter_constructorLayout : depthAfter depth p.constructorLayout = depth := by
  simp [constructorLayout, constructorOpening, constructorBody]

@[simp] theorem depthAfter_interfaceLayout : depthAfter depth p.interfaceLayout = depth := by
  simp [interfaceLayout, constructorOpening, abstractMethod]

@[simp] theorem depthAfter_exportLayout : depthAfter depth p.exportLayout = depth := by
  simp [exportLayout]

@[simp] theorem depthAfter_classInfoLayout : depthAfter depth p.classInfoLayout = depth := by
  simp [classInfoLayout]

@[simp] theorem depthAfter_bodyLayout (body : List Stmt) : depthAfter depth (p.bodyLayout body) = depth := by
  rw [bodyLayout, depthAfter_nested, depthAfter_flatMap _ fun _ _ => rfl, Nat.add_sub_cancel]

@[simp] theorem depthAfter_methodHead (tags : List Code) (name params : String) :
    depthAfter depth (p.methodHead tags name params) = depth := by
  simp [methodHead]

@[simp] theorem depthAfter_accessorLayout (a : AccessorPair) :
    depthAfter depth (p.accessorLayout a) = depth := by
  simp [accessorLayout, getterLayout, setterLayout, announceLayout, storeLayout]

@[simp] theorem depthAfter_membersLayout : depthAfter depth p.membersLayout = depth := by
  simp [membersLayout, staticFieldLayout, assignFirst, handlerLayout, methodLayout]

/-- The text of a class ends with its reflection. -/
theorem text_layout (spelling : Name → String) :
    ∃ front, p.layout.text spelling 0 = front ++ p.reflectionLayout.text spelling 0 := by
  obtain ⟨front, hfront, hdepth⟩ :
      ∃ front : Layout, p.layout = front ++ p.reflectionLayout ∧ depthAfter 0 front = 0 := by
    unfold layout
    cases p.decl.kind with
    | interface => exact ⟨_, rfl, by simp⟩
    | concrete => exact ⟨_, rfl, by simp⟩
  rw [hfront, text_append, hdepth]
  exact ⟨_, rfl⟩

end ClassPlan

end Lowering
