import Lowering.Json

/-! Reading values out of JSON.

A decoder is given how many arrays and objects may still be opened inside each other
and refuses a value that is not of its shape. A record is an object whose known keys
occur at most once, its other entries being passed over unread, or an array of the
fields in order with the last ones left out. A tagged value names its variant under
one key; it is read as a whole, so that also entries nobody asks for must be sound. -/
namespace Lowering.Json

/-- Reads a value within the room that is left for nesting. -/
abbrev Decoder (α : Type) := (room : Nat) → Json → Option α

/-- How many arrays and objects may be opened inside each other. -/
def nestingLimit : Nat := 127

/-- The result of a decoder for a whole text. -/
def Decoder.decode {α : Type} (d : Decoder α) (v : Json) : Option α := d nestingLimit v

/-! ### Values without parts -/

def aBool : Decoder Bool
  | _, .bool b => some b
  | _, _ => none

def aString : Decoder String
  | _, .string s => s
  | _, _ => none

/-- A natural number below a bound, in plain digits. -/
def aNat (bound : Nat) : Decoder Nat
  | _, .number n => n.toNat?.filter (· < bound)
  | _, _ => none

def aUInt32 : Decoder UInt32 := fun room v => (aNat UInt32.size room v).map UInt32.ofNat

/-- A decoder followed by a function. -/
def Decoder.map {α β : Type} (f : α → β) (d : Decoder α) : Decoder β :=
  fun room v => (d room v).map f

/-- The value that a word stands for. -/
def oneOf {α : Type} (words : List (String × α)) : Decoder α
  | _, .string (some s) => words.lookup s
  | _, _ => none

/-- A word, or an object that has it as its only key and nothing under it. -/
def choice {α : Type} (words : List (String × α)) : Decoder α
  | room + 1, .object [(some s, .null)] => oneOf words room (text s)
  | room, v => oneOf words room v

/-! ### Lists and records -/

def listOf {α : Type} (d : Decoder α) : Decoder (List α)
  | room + 1, .array items => items.mapM (d room)
  | _, _ => none

/-- The fields of a record that are present, and the room inside it. -/
structure Record where
  room : Nat
  present : List (String × Json)

/-- The entries with a text for a key; none if a key is no text. -/
def textKeys? (entries : List (Option String × Json)) : Option (List (String × Json)) :=
  entries.mapM fun (key, value) => key.map (·, value)

/-- The fields of a record under the given keys. -/
def fields? (keys : List String) : Json → Option (List (String × Json))
  | .array items => if items.length ≤ keys.length then some (keys.zip items) else none
  | .object entries => do
    let known := (← textKeys? entries).filter (·.1 ∈ keys)
    if (known.map (·.1)).Nodup then some known else none
  | _ => none

def record {α : Type} (keys : List String) (build : Record → Option α) : Decoder α
  | room + 1, v => do build ⟨room, ← fields? keys v⟩
  | 0, _ => none

namespace Record

variable {α : Type}

def required (r : Record) (key : String) (d : Decoder α) : Option α := do
  d r.room (← r.present.lookup key)

/-- A field that has the given value when it is left out. -/
def orElse (r : Record) (key : String) (d : Decoder α) (default : α) : Option α :=
  match r.present.lookup key with
  | some v => d r.room v
  | none => some default

/-- A field that may be left out or null. -/
def optional (r : Record) (key : String) (d : Decoder α) : Option (Option α) :=
  match r.present.lookup key with
  | none => some none
  | some .null => some none
  | some v => (d r.room v).map some

end Record

/-! ### Tagged values -/

/-- Whether the value fits the room and all its numbers and strings can be read. -/
def isSound : (room : Nat) → Json → Bool
  | _, .null => true
  | _, .bool _ => true
  | _, .number n => n.toBinary64?.isSome
  | _, .string s => s.isSome
  | 0, .array _ => false
  | 0, .object _ => false
  | room + 1, .array items => items.all (isSound room)
  | room + 1, .object entries => entries.all fun (key, value) => key.isSome && isSound room value

/-- The variant that a tag names; within a value that was read as a whole also by its
position. -/
def variant? (inner : Bool) (variants : List String) : Json → Option String
  | .string (some s) => if s ∈ variants then some s else none
  | .number n => if inner then n.toNat?.bind (variants[·]?) else none
  | _ => none

/-- The variant and the fields of a tagged value: the tag stands under its key or
first in an array. -/
def tagged? (tag : String) (inner : Bool) (variants : List String) :
    Json → Option (String × Json)
  | .array (v :: items) => do return (← variant? inner variants v, .array items)
  | .object entries =>
    match entries.filter (·.1 = some tag) with
    | [(_, v)] => do
      return (← variant? inner variants v, .object (entries.filter (·.1 ≠ some tag)))
    | _ => none
  | _ => none

/-- A variant without fields. -/
def noFields : Json → Option Unit
  | .array [] => some ()
  | .object _ => some ()
  | _ => none

end Lowering.Json
