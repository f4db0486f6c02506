import Lowering.Json

/-! TOML documents.

A document is a table. Headers and dotted keys build tables inside it, and what may be
added to a table later on depends on how it came to be: a table that only a longer
header or a dotted key has named so far may still grow, one that is written out may
not. -/
namespace Lowering

/-- How a table came to be. -/
inductive TableOrigin where
  /-- Its own header or braces hold it. -/
  | written
  /-- It stands on the way to the table of a header. -/
  | implied
  /-- It stands on the way to the last part of a dotted key. -/
  | dotted
deriving DecidableEq, Repr, Inhabited

inductive Toml where
  | string (value : String)
  | integer (value : Int)
  | number (value : Binary64)
  | boolean (value : Bool)
  /-- A date, a time or both. -/
  | moment
  | array (items : List Toml)
  /-- A table in braces. -/
  | closed (entries : List (String × Toml))
  | table (origin : TableOrigin) (entries : List (String × Toml))
  /-- The tables of an array header, of which the last may grow. -/
  | tables (earlier : List (List (String × Toml))) (last : List (String × Toml))
deriving Repr, Inhabited

namespace Toml

abbrev Entries := List (String × Toml)

/-! ### Building tables -/

/-- Replaces the value of a key. -/
def Entries.set (entries : Entries) (key : String) (v : Toml) : Entries :=
  entries.map fun e => if e.1 = key then (key, v) else e

/-- Puts a value under a key that is new. -/
def Entries.add (entries : Entries) (key : String) (v : Toml) : Option Entries :=
  if (entries.lookup key).isSome then none else some (entries ++ [(key, v)])

/-- Puts a value under a dotted key. The tables on the way are made or, where dotted keys
or longer headers have made them, extended; the innermost has to be dotted itself. -/
def Entries.place (v : Toml) : (keys : List String) → Entries → Option Entries
  | [], _ => none
  | [key], entries => entries.add key v
  | key :: next :: more, entries =>
    match entries.lookup key with
    | none => do
      entries.add key (.table .dotted (← place v (next :: more) []))
    | some (.table .dotted inner) => do
      return entries.set key (.table .dotted (← place v (next :: more) inner))
    | some (.table .implied inner) => do
      if more.isEmpty then none
      return entries.set key (.table .implied (← place v (next :: more) inner))
    | some (.tables earlier last) => do
      if more.isEmpty then none
      return entries.set key (.tables earlier (← place v (next :: more) last))
    | _ => none

/-- A dotted key with its value. -/
abbrev Assignment := List String × Toml

/-- Puts values under dotted keys one after the other. -/
def Entries.placeAll (entries : Entries) (assignments : List Assignment) : Option Entries :=
  assignments.foldlM (fun entries (keys, v) => entries.place v keys) entries

/-- Changes what a header names: the entry of its last part, inside the tables of the
other parts, which are made where they are missing. -/
def Entries.change (f : Option Toml → Option Toml) : (keys : List String) → Entries → Option Entries
  | [], _ => none
  | [key], entries =>
    match entries.lookup key with
    | none => do entries.add key (← f none)
    | some v => do return entries.set key (← f (some v))
  | key :: next :: more, entries =>
    match entries.lookup key with
    | none => do entries.add key (.table .implied (← change f (next :: more) []))
    | some (.table origin inner) => do
      return entries.set key (.table origin (← change f (next :: more) inner))
    | some (.tables earlier last) => do
      return entries.set key (.tables earlier (← change f (next :: more) last))
    | _ => none

/-- A header with the assignments below it. -/
inductive Section where
  | table (keys : List String) (body : List Assignment)
  | element (keys : List String) (body : List Assignment)
deriving Repr

/-- The table of a header; one that longer headers have implied keeps its entries. -/
def written (body : List Assignment) : Option Toml → Option Toml
  | none => (Entries.placeAll [] body).map (.table .written)
  | some (.table .implied entries) => (Entries.placeAll entries body).map (.table .written)
  | some _ => none

/-- One more table of an array. -/
def extended (body : List Assignment) : Option Toml → Option Toml
  | none => (Entries.placeAll [] body).map (.tables [])
  | some (.tables earlier last) => (Entries.placeAll [] body).map (.tables (earlier ++ [last]))
  | some _ => none

def Entries.addSection (entries : Entries) : Section → Option Entries
  | .table keys body => entries.change (written body) keys
  | .element keys body => entries.change (extended body) keys

/-- The entries of a document: assignments and then sections. -/
def Entries.ofSections (top : List Assignment) (sections : List Section) : Option Entries := do
  sections.foldlM addSection (← placeAll [] top)

/-! ### As JSON -/

mutual

/-- The value in terms of JSON. A moment is an object of which nothing is known. -/
def toJson : Toml → Json
  | .string s => Json.text s
  | .integer n => .number (.ofInt n)
  | .number x => if x.isNaN || x.isInfinite then .null else .number (.ofBinary64 x)
  | .boolean b => .bool b
  | .moment => Json.fields [("moment", .null)]
  | .array items => .array (toJsons items)
  | .closed entries => .object (toFields entries)
  | .table _ entries => .object (toFields entries)
  | .tables earlier last => .array (toObjects earlier ++ [.object (toFields last)])

def toJsons : List Toml → List Json
  | [] => []
  | v :: rest => v.toJson :: toJsons rest

def toFields : List (String × Toml) → List (Option String × Json)
  | [] => []
  | (key, v) :: rest => (some key, v.toJson) :: toFields rest

def toObjects : List (List (String × Toml)) → List Json
  | [] => []
  | entries :: rest => .object (toFields entries) :: toObjects rest

end

end Toml

end Lowering
