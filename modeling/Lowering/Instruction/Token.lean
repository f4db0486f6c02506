import Lowering.Instruction

/-! The encoded form of instructions.

The builder receives a flat array. For a nested node it holds the type, the properties,
the styles and the listeners, each group with its count before it, and the content: an
array, or null when there is none. A property is its name, a marker and its value; the
marker is true before a simple value, false before the array of a nested node, and null
before the array of a sequence of nodes one after the other. The identity is the first
property. The root has neither type nor content; what content it has travels as its
last property. -/
namespace Lowering

/-- One element of the array; `ρ` is how a type is referred to. -/
inductive Token (ρ : Type) where
  | type (ref : ρ)
  | count (n : Nat)
  | text (s : String)
  /-- A marker that is not null. -/
  | mark (simple : Bool)
  | null
  | literal (value : Literal)
  | expression (value : Expr)
  | handler (name : String)
  | array (items : List (Token ρ))
deriving Repr, Inhabited

variable {ρ : Type}

def Identity.tokens (i : Identity) : List (Token ρ) :=
  [.text i.property, .mark true, .text i.name]

def styleTokens (styles : List Style) : List (Token ρ) :=
  .count styles.length ::
    styles.flatMap fun s => [.text s.name, .mark true, .literal s.value]

def listenerTokens (listeners : List Listener) : List (Token ρ) :=
  .count listeners.length :: listeners.flatMap fun l => [.text l.event, .handler l.handler]

/-- The content slot of a nested node. -/
def contentToken (items : List (Token ρ)) : Token ρ :=
  if items.isEmpty then .null else .array items

namespace Instruction

variable (nameOf : Name → ρ)

mutual

/-- The array of a nested node. -/
def encode : Instruction → List (Token ρ)
  | ⟨_, target, identity, properties, styles, listeners, content⟩ =>
    .type (nameOf target) :: .count (identity.toList.length + properties.length) ::
      (identity.toList.flatMap Identity.tokens ++ encodeProperties properties ++
        styleTokens styles ++ listenerTokens listeners ++ [contentToken (encodeAll content)])

def encodeProperties : List (String × InstructionValue) → List (Token ρ)
  | [] => []
  | (name, .literal value) :: rest =>
    .text name :: .mark true :: .literal value :: encodeProperties rest
  | (name, .expression value) :: rest =>
    .text name :: .mark true :: .expression value :: encodeProperties rest
  | (name, .node child) :: rest =>
    .text name :: .mark false :: .array child.encode :: encodeProperties rest
  | (name, .nodes children) :: rest =>
    .text name :: .null :: .array (encodeAll children) :: encodeProperties rest

/-- The arrays of several nodes, one after the other. -/
def encodeAll : List Instruction → List (Token ρ)
  | [] => []
  | i :: rest => i.encode ++ encodeAll rest

end

/-- The content of the root as a property. -/
def rootContent (i : Instruction) : List (String × InstructionValue) :=
  if i.content.isEmpty then [] else [(contentProperty, .nodes i.content)]

/-- The array of the root. -/
def encodeRoot (i : Instruction) : List (Token ρ) :=
  let properties := i.properties ++ i.rootContent
  .count (i.identity.toList.length + properties.length) ::
    (i.identity.toList.flatMap Identity.tokens ++ encodeProperties nameOf properties ++
      styleTokens i.styles ++ listenerTokens i.listeners)

end Instruction

end Lowering
