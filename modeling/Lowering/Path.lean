import Lowering.Name

/-! File paths.

A path is text with slashes between its components; a leading slash makes it
absolute. Joining an absolute path replaces what came before, and otherwise adds
the one slash that is missing. The file of a module is its name with slashes for
dots and the extension `.js`. -/
namespace Lowering

/-- A path as it is written. -/
structure Path where
  text : String
deriving DecidableEq, Repr, Inhabited

namespace Path

def isAbsolute (p : Path) : Bool := ['/'].isPrefixOf p.text.toList

/-- Whether the last character is a slash. -/
def endsInSlash (p : Path) : Bool := p.text.toList.getLast? = some '/'

/-- The path `q` as seen from `p`. -/
def join (p q : Path) : Path :=
  if q.isAbsolute || p.text.isEmpty then q
  else if p.endsInSlash then ⟨p.text ++ q.text⟩
  else ⟨p.text ++ "/" ++ q.text⟩

/-- Cuts a text at every slash. -/
def splitSlashes : List Char → List (List Char)
  | [] => [[]]
  | c :: rest =>
    if c = '/' then [] :: splitSlashes rest
    else match splitSlashes rest with
      | [] => [[c]]
      | part :: parts => (c :: part) :: parts

/-- What stands between the slashes; the first component of an absolute path is empty,
and so is the last of a path that ends in a slash. -/
def components (p : Path) : List String :=
  (splitSlashes p.text.toList).map String.ofList

/-- A component that leads nowhere. -/
def isIdle (component : String) : Bool := component = "" || component = "."

/-- The path of what holds the last component. A leading component stays as it is,
later idle ones at the end do not count, and the root is held by nothing. -/
def parent? (p : Path) : Option Path :=
  match p.components with
  | [] => none
  | first :: rest =>
    match rest.reverse.dropWhile isIdle with
    | [] => if first.isEmpty then none else some ⟨""⟩
    | _ :: before =>
      match first :: (before.dropWhile isIdle).reverse with
      | [""] => some ⟨"/"⟩
      | components => some ⟨"/".intercalate components⟩

/-- The text without the slashes at its end. -/
def withoutTrailingSlashes (p : Path) : Path :=
  ⟨String.ofList (p.text.toList.reverse.dropWhile (· = '/')).reverse⟩

/-- Appends an extension to a last component that has none; a path without a last
component stays as it is. -/
def withExtension (p : Path) (extension : String) : Path :=
  if p.withoutTrailingSlashes.text.isEmpty then p
  else ⟨p.withoutTrailingSlashes.text ++ "." ++ extension⟩

end Path

/-- Where the unit of module `n` is written, relative to the output directory. -/
def Name.outputPath (n : Name) : Path :=
  (n.segments.foldl (fun (p : Path) segment => p.join ⟨segment⟩) ⟨""⟩).withExtension "js"

end Lowering
