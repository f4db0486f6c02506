import Lowering.Proofs.Instruction.RoundTrip
import Mathlib.Data.List.Perm.Basic

/-! The listeners in encoded instructions.

An array names a handler wherever one of its tokens does, at any depth. The array of an
instruction names the handlers of the listeners of the instruction itself and of all that are
nested in it, and nothing else in it names one (`handlersIn_encode`). Reading the array gives the
listeners back to the node that each of them listens at, since the outlines that are read stand in
the order of the instructions (`rootOutline_listeners`). -/
namespace Lowering

variable {ρ : Type}

mutual

/-- The handlers that a token names, at any depth. -/
def Token.handlers : Token ρ → List String
  | .handler name => [name]
  | .array items => handlersIn items
  | _ => []

/-- The handlers that the tokens of an array name, from left to right. -/
def handlersIn : List (Token ρ) → List String
  | [] => []
  | t :: rest => t.handlers ++ handlersIn rest

end

/-- What an outline says of its listeners. -/
def Instruction.heard (i : Instruction) : List (String × String) :=
  i.listeners.map fun l => (l.event, l.handler)

/-! ### Handlers of arrays -/

theorem handlersIn_eq (tokens : List (Token ρ)) : handlersIn tokens = tokens.flatMap Token.handlers := by
  induction tokens with
  | nil => rfl
  | cons t rest ih => rw [handlersIn, ih, List.flatMap_cons]

@[simp] theorem handlersIn_append (ts us : List (Token ρ)) :
    handlersIn (ts ++ us) = handlersIn ts ++ handlersIn us := by
  simp only [handlersIn_eq, List.flatMap_append]

theorem handlersIn_flatMap {α : Type} (items : List α) (tokens : α → List (Token ρ)) :
    handlersIn (items.flatMap tokens) = items.flatMap fun a => handlersIn (tokens a) := by
  simp only [handlersIn_eq, List.flatMap_assoc]

@[simp] theorem handlersIn_identity (identity : Option Identity) :
    handlersIn (ρ := ρ) (identity.toList.flatMap Identity.tokens) = [] := by
  cases identity <;> rfl

@[simp] theorem handlersIn_styles (styles : List Style) :
    handlersIn (ρ := ρ) (styleTokens styles) = [] := by
  show handlersIn (styles.flatMap _) = []
  rw [handlersIn_flatMap]
  exact List.flatMap_eq_nil_iff.mpr fun _ _ => rfl

@[simp] theorem handlersIn_listeners (listeners : List Listener) :
    handlersIn (ρ := ρ) (listenerTokens listeners) = listeners.map (·.handler) := by
  show handlersIn (listeners.flatMap _) = _
  rw [handlersIn_flatMap]
  exact List.flatMap_pure_eq_map _ _

@[simp] theorem handlersIn_content (items : List (Token ρ)) :
    handlersIn [contentToken items] = handlersIn items := by
  unfold contentToken
  split
  next h =>
    rw [List.isEmpty_iff.mp h]
    rfl
  next => exact List.append_nil _

namespace Instruction

variable (nameOf : Name → ρ)

/-- Of the properties those that nest instructions name handlers. -/
theorem handlersIn_encodeProperties (ps : List (String × InstructionValue)) :
    handlersIn (encodeProperties nameOf ps) =
      (ps.flatMap (·.2.children)).flatMap fun c => handlersIn (c.encode nameOf) := by
  induction ps with
  | nil => rfl
  | cons p rest ih =>
    obtain ⟨name, value⟩ := p
    rw [List.flatMap_cons, List.flatMap_append, ← ih]
    cases value with
    | literal value => rfl
    | expression value => rfl
    | node child =>
      show handlersIn (child.encode nameOf) ++ _ = _
      rw [InstructionValue.children, List.flatMap_singleton]
    | nodes children =>
      show handlersIn (encodeAll nameOf children) ++ _ = _
      rw [InstructionValue.children, encodeAll_eq, handlersIn_flatMap]

/-- After its properties a node has its own listeners. -/
theorem handlersIn_body (identity : Option Identity) (ps : List (String × InstructionValue))
    (styles : List Style) (listeners : List Listener) :
    handlersIn (identity.toList.flatMap Identity.tokens ++ encodeProperties nameOf ps ++
        styleTokens styles ++ listenerTokens listeners) =
      (ps.flatMap (·.2.children)).flatMap (fun c => handlersIn (c.encode nameOf)) ++
        listeners.map (·.handler) := by
  rw [handlersIn_append, handlersIn_append, handlersIn_append, handlersIn_identity,
    handlersIn_styles, handlersIn_listeners, handlersIn_encodeProperties, List.nil_append,
    List.append_nil]

/-- The handlers of what is nested, whether before an instruction's own listeners or after them. -/
theorem handlers_children_perm (i : Instruction)
    (h : ∀ c ∈ i.children, (handlersIn (c.encode nameOf)).Perm
      (c.flatten.flatMap fun j => j.listeners.map (·.handler))) :
    (i.listeners.map (·.handler) ++ i.children.flatMap fun c => handlersIn (c.encode nameOf)).Perm
      (i.flatten.flatMap fun j => j.listeners.map (·.handler)) := by
  rw [flatten_eq, List.flatMap_cons, List.flatMap_assoc]
  exact (List.Perm.flatMap_left _ h).append_left _

/-- An instruction's own listeners stand between what its properties nest and its content. -/
theorem handlersIn_encode (i : Instruction) :
    (handlersIn (i.encode nameOf)).Perm (i.flatten.flatMap fun j => j.listeners.map (·.handler)) := by
  induction i using nesting with
  | step i ih =>
    have hself : handlersIn (i.encode nameOf) =
        (i.properties.flatMap (·.2.children)).flatMap (fun c => handlersIn (c.encode nameOf)) ++
          i.listeners.map (·.handler) ++ i.content.flatMap fun c => handlersIn (c.encode nameOf) := by
      obtain ⟨_, _, identity, properties, styles, listeners, content⟩ := i
      rw [encode]
      show handlersIn (_ ++ [_]) = _
      rw [handlersIn_append, handlersIn_body, handlersIn_content, encodeAll_eq, handlersIn_flatMap]
    rw [hself]
    refine .trans ?_ (handlers_children_perm nameOf i ih)
    rw [children, List.flatMap_append, ← List.append_assoc]
    exact List.perm_append_comm.append_right _

/-- In the array of the root the content comes before the listeners, too. -/
theorem handlersIn_encodeRoot (i : Instruction) :
    (handlersIn (i.encodeRoot nameOf)).Perm
      (i.flatten.flatMap fun j => j.listeners.map (·.handler)) := by
  have hself : handlersIn (i.encodeRoot nameOf) =
      i.children.flatMap (fun c => handlersIn (c.encode nameOf)) ++ i.listeners.map (·.handler) := by
    rw [encodeRoot]
    show handlersIn (_ ++ _ ++ _ ++ _) = _
    rw [handlersIn_body, List.flatMap_append, rootContent_children, children]
  rw [hself]
  exact List.perm_append_comm.trans
    (handlers_children_perm nameOf i fun c _ => handlersIn_encode nameOf c)

end Instruction

/-! ### Outlines in order -/

theorem Outline.flattenAll_eq (os : List (Outline ρ)) :
    Outline.flattenAll os = os.flatMap Outline.flatten := by
  induction os with
  | nil => rfl
  | cons o rest ih => rw [Outline.flattenAll, ih, List.flatMap_cons]

namespace Instruction

variable (nameOf : Name → ρ)

theorem flattenProperties_outline (ps : List (String × InstructionValue)) :
    Outline.flattenProperties (outlineProperties nameOf ps) =
      (ps.flatMap (·.2.children)).flatMap fun c => (c.outline nameOf).flatten := by
  induction ps with
  | nil => rfl
  | cons p rest ih =>
    obtain ⟨name, value⟩ := p
    rw [List.flatMap_cons, List.flatMap_append, ← ih]
    cases value with
    | literal value => rfl
    | expression value => rfl
    | node child =>
      show (child.outline nameOf).flatten ++ _ = _
      rw [InstructionValue.children, List.flatMap_singleton]
    | nodes children =>
      show Outline.flattenAll (outlineAll nameOf children) ++ _ = _
      rw [InstructionValue.children, Outline.flattenAll_eq, outlineAll_eq, List.flatMap_map]

theorem flatten_outline (i : Instruction) :
    (i.outline nameOf).flatten = i.flatten.map (outline nameOf) := by
  induction i using nesting with
  | step i ih =>
    have hself : (i.outline nameOf).flatten =
        i.outline nameOf :: i.children.flatMap fun c => (c.outline nameOf).flatten := by
      obtain ⟨_, _, _, properties, _, _, content⟩ := i
      rw [outline, Outline.flatten, flattenProperties_outline, Outline.flattenAll_eq, outlineAll_eq,
        List.flatMap_map, children, List.flatMap_append]
    rw [hself, flatten_eq, List.map_cons, List.map_flatMap, List.flatMap_congr ih]

/-- The outlines in the root's are those of the instructions, in the order of these. -/
theorem rootOutline_listeners (i : Instruction) :
    (i.rootOutline nameOf).flatten.map (·.listeners) = i.flatten.map heard := by
  have hheard : ∀ j : Instruction, (j.outline nameOf).listeners = j.heard := by
    intro j
    obtain ⟨_, _, _, _, _, _, _⟩ := j
    rfl
  have hroot : (i.rootOutline nameOf).flatten =
      i.rootOutline nameOf :: (i.outline nameOf).flatten.tail := by
    obtain ⟨_, _, _, _, _, _, _⟩ := i
    rfl
  rw [hroot, flatten_outline, List.map_cons, rootOutline, hheard, flatten_eq, List.map_cons,
    List.tail_cons, List.map_map, List.map_cons]
  exact congrArg (i.heard :: ·) (List.map_congr_left fun j _ => hheard j)

end Instruction

end Lowering
