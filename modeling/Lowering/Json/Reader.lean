import Lowering.Json.Token

/-! Reading JSON text.

The tokens are taken one by one; what is still open is kept on a stack, so arrays and
objects may be nested as deep as memory allows. -/
namespace Lowering.Json

/-- An array or an object that is not closed yet, its parts in reverse. -/
inductive Open where
  | array (items : List Json)
  /-- With the key whose value comes next. -/
  | object (entries : List (Option String × Json)) (key : Option String)

/-- What may come next. -/
inductive Expected where
  | value
  /-- A value, or the end of an array that was just opened. -/
  | firstItem
  /-- A key, or the end of an object that was just opened. -/
  | firstKey
  | key
  | colon
  /-- A comma, or the end of what is open. -/
  | separator
  /-- The end of the text, after this value. -/
  | finished (value : Json)

/-- What is open and what may come next. -/
structure State where
  stack : List Open
  expected : Expected

/-- Puts a complete value where it belongs. -/
def State.deliver (v : Json) : List Open → State
  | [] => ⟨[], .finished v⟩
  | .array items :: below => ⟨.array (v :: items) :: below, .separator⟩
  | .object entries key :: below => ⟨.object ((key, v) :: entries) key :: below, .separator⟩

/-- Where a value may stand. -/
def State.value (stack : List Open) : Token → Option State
  | .scalar v => some (deliver v stack)
  | .punctuation '[' => some ⟨.array [] :: stack, .firstItem⟩
  | .punctuation '\x7b' => some ⟨.object [] none :: stack, .firstKey⟩
  | .punctuation _ => none

/-- Where what is open may end. -/
def State.close : Char → List Open → Option State
  | ']', .array items :: below => some (deliver (.array items.reverse) below)
  | '\x7d', .object entries _ :: below => some (deliver (.object entries.reverse) below)
  | _, _ => none

/-- Where a key may stand; a key that is no text is refused only by who reads it. -/
def State.key (stack : List Open) : Token → Option State
  | .scalar (.string k) =>
    match stack with
    | .object entries _ :: below => some ⟨.object entries k :: below, .colon⟩
    | _ => none
  | _ => none

/-- Takes one token. -/
def State.step (s : State) (t : Token) : Option State :=
  match s.expected, t with
  | .value, t => value s.stack t
  | .firstItem, .punctuation ']' => close ']' s.stack
  | .firstItem, t => value s.stack t
  | .firstKey, .punctuation '\x7d' => close '\x7d' s.stack
  | .firstKey, t => key s.stack t
  | .key, t => key s.stack t
  | .colon, .punctuation ':' => some ⟨s.stack, .value⟩
  | .separator, .punctuation ',' =>
    match s.stack with
    | .array _ :: _ => some ⟨s.stack, .value⟩
    | .object _ _ :: _ => some ⟨s.stack, .key⟩
    | [] => none
  | .separator, .punctuation c => close c s.stack
  | _, _ => none

/-- The value of a text that holds one value and nothing else. -/
def parse? (text : String) : Option Json := do
  let tokens ← tokens? text.toList
  let last ← tokens.foldlM State.step ⟨[], .value⟩
  match last.expected with
  | .finished v => some v
  | _ => none

end Lowering.Json
