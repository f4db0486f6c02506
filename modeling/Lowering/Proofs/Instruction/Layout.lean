import Lowering.Instruction.Outline

/-! The layout of arrays.

An outline is written as the builder reads it: the type, the properties behind their count with
the identity first, the styles, the listeners, and the content, for which null stands when there
is none (`Outline.written`). Content that is empty may as well be written as an empty array, in
each node for itself. `Outline.Spells` allows for this freedom and no other; arrays that differ in
nothing else are `Outline.Alike`, and so are all that spell one outline (`Spells.alike`). -/
namespace Lowering.Outline

variable {ρ : Type}

/-! ### Writing an outline -/

def writtenIdentity (identity : Option (String × String)) : List (Token ρ) :=
  identity.toList.flatMap fun i => [.text i.1, .mark true, .text i.2]

def writtenStyles (styles : List (String × Token ρ)) : List (Token ρ) :=
  .count styles.length :: styles.flatMap fun s => [.text s.1, .mark true, s.2]

def writtenListeners (listeners : List (String × String)) : List (Token ρ) :=
  .count listeners.length :: listeners.flatMap fun l => [.text l.1, .handler l.2]

mutual

/-- The array of a node. -/
def written : Outline ρ → List (Token ρ)
  | ⟨target, identity, properties, styles, listeners, content⟩ =>
    target.toList.map .type ++ .count (identity.toList.length + properties.length) ::
      (writtenIdentity identity ++ writtenProperties properties ++
        (writtenStyles styles ++ writtenListeners listeners) ++ [contentToken (writtenAll content)])

/-- The name, the marker and the value of each property. -/
def writtenProperties : List (String × OutlineValue ρ) → List (Token ρ)
  | [] => []
  | (name, .simple token) :: rest => .text name :: .mark true :: token :: writtenProperties rest
  | (name, .node child) :: rest =>
    .text name :: .mark false :: .array child.written :: writtenProperties rest
  | (name, .nodes children) :: rest =>
    .text name :: .null :: .array (writtenAll children) :: writtenProperties rest

/-- The arrays of several nodes, one after the other. -/
def writtenAll : List (Outline ρ) → List (Token ρ)
  | [] => []
  | o :: rest => o.written ++ writtenAll rest

end

/-! ### The ways to write empty content -/

mutual

/-- The tokens are an array of the nested node. -/
inductive Spells : Outline ρ → List (Token ρ) → Prop where
  | node {ref : ρ} {identity : Option (String × String)} {properties : List (String × OutlineValue ρ)}
      {styles : List (String × Token ρ)} {listeners : List (String × String)} {content : List (Outline ρ)}
      {ps : List (Token ρ)} {c : Token ρ} :
      SpellsProperties properties ps → SpellsContent content c →
        Spells ⟨some ref, identity, properties, styles, listeners, content⟩
          (.type ref :: .count (identity.toList.length + properties.length) ::
            (writtenIdentity identity ++ ps ++ (writtenStyles styles ++ writtenListeners listeners) ++ [c]))

/-- The tokens are those of properties. -/
inductive SpellsProperties : List (String × OutlineValue ρ) → List (Token ρ) → Prop where
  | nil : SpellsProperties [] []
  | simple {rest : List (String × OutlineValue ρ)} {ps : List (Token ρ)} (name : String) (token : Token ρ) :
      SpellsProperties rest ps →
        SpellsProperties ((name, .simple token) :: rest) (.text name :: .mark true :: token :: ps)
  | node {rest : List (String × OutlineValue ρ)} {ps ts : List (Token ρ)} {child : Outline ρ}
      (name : String) : Spells child ts → SpellsProperties rest ps →
        SpellsProperties ((name, .node child) :: rest) (.text name :: .mark false :: .array ts :: ps)
  | nodes {rest : List (String × OutlineValue ρ)} {ps ts : List (Token ρ)} {children : List (Outline ρ)}
      (name : String) : SpellsAll children ts → SpellsProperties rest ps →
        SpellsProperties ((name, .nodes children) :: rest) (.text name :: .null :: .array ts :: ps)

/-- The tokens are arrays of several nodes, one after the other. -/
inductive SpellsAll : List (Outline ρ) → List (Token ρ) → Prop where
  | nil : SpellsAll [] []
  | cons {o : Outline ρ} {rest : List (Outline ρ)} {ts us : List (Token ρ)} :
      Spells o ts → SpellsAll rest us → SpellsAll (o :: rest) (ts ++ us)

/-- The token stands for the content, of which an empty one may be null. -/
inductive SpellsContent : List (Outline ρ) → Token ρ → Prop where
  | null : SpellsContent [] .null
  | array {content : List (Outline ρ)} {ts : List (Token ρ)} :
      SpellsAll content ts → SpellsContent content (.array ts)

end

/-! ### Arrays that differ in nothing else -/

mutual

/-- The arrays of two nodes are the same but for the way in which empty content is written, their
own and that of what is nested in them. -/
inductive Alike : List (Token ρ) → List (Token ρ) → Prop where
  | node {ref : ρ} {count : Nat} {identity ps ps' others : List (Token ρ)} {c c' : Token ρ} :
      AlikeProperties ps ps' → AlikeContent c c' →
        Alike (.type ref :: .count count :: (identity ++ ps ++ others ++ [c]))
          (.type ref :: .count count :: (identity ++ ps' ++ others ++ [c']))

/-- Simple values are the same, and arrays of nodes are alike. -/
inductive AlikeProperties : List (Token ρ) → List (Token ρ) → Prop where
  | nil : AlikeProperties [] []
  | simple {ps ps' : List (Token ρ)} (name : String) (token : Token ρ) : AlikeProperties ps ps' →
      AlikeProperties (.text name :: .mark true :: token :: ps) (.text name :: .mark true :: token :: ps')
  | node {ps ps' ts ts' : List (Token ρ)} (name : String) : Alike ts ts' → AlikeProperties ps ps' →
      AlikeProperties (.text name :: .mark false :: .array ts :: ps)
        (.text name :: .mark false :: .array ts' :: ps')
  | nodes {ps ps' ts ts' : List (Token ρ)} (name : String) : AlikeAll ts ts' → AlikeProperties ps ps' →
      AlikeProperties (.text name :: .null :: .array ts :: ps) (.text name :: .null :: .array ts' :: ps')

/-- The arrays of nodes one after the other are alike, each with the one at its place. -/
inductive AlikeAll : List (Token ρ) → List (Token ρ) → Prop where
  | nil : AlikeAll [] []
  | cons {ts ts' us us' : List (Token ρ)} :
      Alike ts ts' → AlikeAll us us' → AlikeAll (ts ++ us) (ts' ++ us')

/-- Null and the empty array stand for each other. -/
inductive AlikeContent : Token ρ → Token ρ → Prop where
  | null : AlikeContent .null .null
  | nullEmpty : AlikeContent .null (.array [])
  | emptyNull : AlikeContent (.array []) .null
  | array {ts ts' : List (Token ρ)} : AlikeAll ts ts' → AlikeContent (.array ts) (.array ts')

end

mutual

/-- Arrays that spell one node are alike. -/
theorem Spells.alike {o : Outline ρ} {ts ts' : List (Token ρ)} : Spells o ts → Spells o ts' → Alike ts ts'
  | .node hps hc, .node hps' hc' => .node (hps.alike hps') (hc.alike hc')

theorem SpellsProperties.alike {properties : List (String × OutlineValue ρ)} {ps ps' : List (Token ρ)} :
    SpellsProperties properties ps → SpellsProperties properties ps' → AlikeProperties ps ps'
  | .nil, .nil => .nil
  | .simple name token h, .simple _ _ h' => .simple name token (h.alike h')
  | .node name hchild h, .node _ hchild' h' => .node name (hchild.alike hchild') (h.alike h')
  | .nodes name hchildren h, .nodes _ hchildren' h' => .nodes name (hchildren.alike hchildren') (h.alike h')

theorem SpellsAll.alike {os : List (Outline ρ)} {ts ts' : List (Token ρ)} :
    SpellsAll os ts → SpellsAll os ts' → AlikeAll ts ts'
  | .nil, .nil => .nil
  | .cons h hrest, .cons h' hrest' => .cons (h.alike h') (hrest.alike hrest')

theorem SpellsContent.alike {os : List (Outline ρ)} {c c' : Token ρ} :
    SpellsContent os c → SpellsContent os c' → AlikeContent c c'
  | .null, .null => .null
  | .null, .array .nil => .nullEmpty
  | .array .nil, .null => .emptyNull
  | .array h, .array h' => .array (h.alike h')

end

/-- Content that is not empty is written as an array, since every node takes some tokens. -/
theorem contentToken_written {o : Outline ρ} {ts : List (Token ρ)} {rest : List (Outline ρ)} (h : Spells o ts) :
    contentToken (writtenAll (o :: rest)) = .array (writtenAll (o :: rest)) := by
  cases h with
  | node => rfl

mutual

/-- What is spelled at all is spelled as it is written. -/
theorem Spells.written {o : Outline ρ} {ts : List (Token ρ)} : Spells o ts → Spells o o.written
  | .node hps hc => .node hps.written hc.written

theorem SpellsProperties.written {properties : List (String × OutlineValue ρ)} {ps : List (Token ρ)} :
    SpellsProperties properties ps → SpellsProperties properties (writtenProperties properties)
  | .nil => .nil
  | .simple name token h => .simple name token h.written
  | .node name hchild h => .node name hchild.written h.written
  | .nodes name hchildren h => .nodes name hchildren.written h.written

theorem SpellsAll.written {os : List (Outline ρ)} {ts : List (Token ρ)} :
    SpellsAll os ts → SpellsAll os (writtenAll os)
  | .nil => .nil
  | .cons h hrest => .cons h.written hrest.written

theorem SpellsContent.written {os : List (Outline ρ)} {c : Token ρ} :
    SpellsContent os c → SpellsContent os (contentToken (writtenAll os))
  | .null => .null
  | .array .nil => .null
  | .array (.cons h hrest) => by
    rw [contentToken_written h]
    exact .array (.cons h.written hrest.written)

end

end Lowering.Outline
