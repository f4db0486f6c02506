import Lowering.Instruction.Token

/-! Reading encoded instructions.

An outline is what the graph builder learns from an array. Reading goes from the inside
out: the arrays within an array are read first, each as one node and as a sequence of
nodes, and the marker before it selects which of the two is meant. Positions in errors
count from the start of the array in which the error is met. -/
namespace Lowering

mutual

/-- What a property is assigned. -/
inductive OutlineValue (ρ : Type) where
  | simple (token : Token ρ)
  | node (child : Outline ρ)
  | nodes (children : List (Outline ρ))

/-- One node as it is read from an array. -/
structure Outline (ρ : Type) where
  /-- Absent for the root. -/
  target : Option ρ
  /-- The identity property and the field that it names. -/
  identity : Option (String × String)
  properties : List (String × OutlineValue ρ)
  styles : List (String × Token ρ)
  /-- Events and their handlers. -/
  listeners : List (String × String)
  content : List (Outline ρ)

end

variable {ρ : Type}

/-- Why an array cannot be read. -/
inductive DecodeError where
  | unexpectedEnd (reading : String)
  | unexpected (expected : String) (position : Nat)
  | trailing (count : Nat)
deriving DecidableEq, Repr

def DecodeError.message : DecodeError → String
  | .unexpectedEnd reading => "Unexpected end of instruction array while reading " ++ reading
  | .unexpected expected position => s!"Expected {expected} at position {position}"
  | .trailing count => s!"{count} trailing element(s) after the instruction"

namespace Outline

mutual

/-- The node and every nested one, in pre-order. -/
def flatten : Outline ρ → List (Outline ρ)
  | o@⟨_, _, properties, _, _, content⟩ =>
    o :: (flattenProperties properties ++ flattenAll content)

def flattenProperties : List (String × OutlineValue ρ) → List (Outline ρ)
  | [] => []
  | (_, .node child) :: rest => child.flatten ++ flattenProperties rest
  | (_, .nodes children) :: rest => flattenAll children ++ flattenProperties rest
  | (_, .simple _) :: rest => flattenProperties rest

def flattenAll : List (Outline ρ) → List (Outline ρ)
  | [] => []
  | o :: rest => o.flatten ++ flattenAll rest

end

/-! ### Reading one level -/

/-- What the array in a token says, if it is one. -/
structure Nested (ρ : Type) where
  asNode : Except DecodeError (Outline ρ)
  asSequence : Except DecodeError (List (Outline ρ))

/-- A token with what its array says. -/
structure Item (ρ : Type) where
  token : Token ρ
  nested : Option (Nested ρ)

/-- The items that are left, and how many came before. -/
structure Cursor (ρ : Type) where
  position : Nat
  rest : List (Item ρ)

abbrev Reading (ρ α : Type) := StateT (Cursor ρ) (Except DecodeError) α

/-- Takes the next item, which is to be `what`. -/
def next (what : String) : Reading ρ (Item ρ) := fun c =>
  match c.rest with
  | [] => .error (.unexpectedEnd what)
  | i :: rest => .ok (i, ⟨c.position + 1, rest⟩)

/-- The item that was taken last is not what was expected. -/
def unexpected {α : Type} (what : String) : Reading ρ α := fun c =>
  .error (.unexpected what (c.position - 1))

def count : Reading ρ Nat := do
  match (← next "count").token with
  | .count n => return n
  | _ => unexpected "count"

def string (what : String) : Reading ρ String := do
  match (← next what).token with
  | .text s => return s
  | _ => unexpected what

/-- Reads the same thing `n` times. -/
def times {α : Type} (read : Reading ρ α) : Nat → Reading ρ (List α)
  | 0 => return []
  | n + 1 => do
    let a ← read
    return a :: (← times read n)

def property : Reading ρ (String × OutlineValue ρ) := do
  let name ← string "property name"
  let marker ← next "marker"
  let value ← next "property value"
  match marker.token, value.nested with
  | .mark true, _ => return (name, .simple value.token)
  | .mark false, some nested => return (name, .node (← nested.asNode))
  | .null, some nested => return (name, .nodes (← nested.asSequence))
  | _, _ => unexpected "property marker and value"

def style : Reading ρ (String × Token ρ) := do
  let name ← string "style name"
  match (← next "style marker").token with
  | .mark true => return (name, (← next "style value").token)
  | _ => unexpected "style marker"

def listener : Reading ρ (String × String) := do
  let event ← string "event name"
  match (← next "handler").token with
  | .handler name => return (event, name)
  | _ => unexpected "handler"

/-- The identity, if the first property is one, and the other properties. -/
def splitIdentity :
    List (String × OutlineValue ρ) → Option (String × String) × List (String × OutlineValue ρ)
  | (name, .simple (.text field)) :: rest =>
    if isIdentityProperty name then (some (name, field), rest)
    else (none, (name, .simple (.text field)) :: rest)
  | properties => (none, properties)

/-- What the root and nested nodes have in common. -/
def body (target : Option ρ) : Reading ρ (Outline ρ) := do
  let (identity, properties) := splitIdentity (← times property (← count))
  let styles ← times style (← count)
  let listeners ← times listener (← count)
  return { target, identity, properties, styles, listeners, content := [] }

def node : Reading ρ (Outline ρ) := do
  match (← next "class reference").token with
  | .type ref =>
    let o ← body (some ref)
    let content ← next "content"
    match content.token, content.nested with
    | .null, _ => return o
    | _, some nested => return { o with content := ← nested.asSequence }
    | _, none => unexpected "content"
  | _ => unexpected "class reference"

/-- Reads nodes as long as items are left; every node takes one at least, so as many
rounds as there are items suffice. -/
def nodes : (rounds : Nat) → Reading ρ (List (Outline ρ))
  | 0 => return []
  | rounds + 1 => do
    if (← get).rest.isEmpty then return []
    let o ← node
    return o :: (← nodes rounds)

/-- Reads all of the items. -/
def whole {α : Type} (read : Reading ρ α) (items : List (Item ρ)) : Except DecodeError α :=
  match read ⟨0, items⟩ with
  | .ok (a, c) => if c.rest.isEmpty then .ok a else .error (.trailing c.rest.length)
  | .error e => .error e

/-! ### Reading all levels -/

mutual

/-- A token with what its array says. -/
def itemOf : Token ρ → Item ρ
  | .array tokens =>
    let items := itemsOf tokens
    ⟨.array tokens, some ⟨whole node items, whole (nodes items.length) items⟩⟩
  | token => ⟨token, none⟩

def itemsOf : List (Token ρ) → List (Item ρ)
  | [] => []
  | t :: rest => itemOf t :: itemsOf rest

end

theorem itemsOf_eq (tokens : List (Token ρ)) : itemsOf tokens = tokens.map itemOf := by
  induction tokens with
  | nil => rfl
  | cons t rest ih => simp [itemsOf, ih]

/-- Reads the array of a nested node. -/
def ofTokens (tokens : List (Token ρ)) : Except DecodeError (Outline ρ) :=
  whole node (itemsOf tokens)

/-- Whether a property carries the content of the root. -/
def isContent : String × OutlineValue ρ → Bool
  | (name, .nodes _) => name = contentProperty
  | _ => false

/-- Turns the first property that carries content into content. -/
def liftContent (o : Outline ρ) : Outline ρ :=
  match o.properties.find? isContent with
  | some (_, .nodes children) =>
    { o with properties := o.properties.eraseP isContent, content := children }
  | _ => o

/-- Reads the array of the root. -/
def ofRootTokens (tokens : List (Token ρ)) : Except DecodeError (Outline ρ) :=
  (whole (body none) (itemsOf tokens)).map liftContent

end Outline

end Lowering
