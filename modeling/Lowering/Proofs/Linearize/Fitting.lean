import Lowering.Proofs.Linearize.Walk
import Mathlib.Data.List.Pairwise
import Mathlib.Tactic.MkIffOfInductiveProp

/-! Keys that a walk can go on to.

Keys fit where a walk stands if they have nodes, the walk is inside of none of them and has
finished none, and their identities are free. What it has walked is finished and taken, so
that keys fit one after the other exactly where they fit together (`fits_append`), and a
node fits with what is below it exactly where that fits inside of the node (`fits_cons`). A
part of a walk covers keys if it succeeds where they fit; what covers keys is put together
the way walks are. -/
namespace Lowering

/-! ### Names that are kept for identities and synthesized members -/

/-- The property is one that identity bindings use. -/
def Property.Reserved (p : Property) : Prop := p.name = exposedProperty ∨ p.name = synthesizedProperty

theorem Property.reserved_iff {p : Property} : isIdentityProperty p.name ↔ p.Reserved := by
  simp [isIdentityProperty, Reserved]

/-- The name is a marker and then one or more decimal digits. -/
def Numbered (marker name : String) : Prop :=
  ∃ digits : List Char, digits ≠ [] ∧ (∀ c ∈ digits, c.isDigit) ∧
    name.toList = marker.toList ++ digits

theorem isNumbered_iff {marker name : String} : isNumbered marker name ↔ Numbered marker name := by
  simp only [isNumbered, Bool.and_eq_true, List.isPrefixOf_iff_prefix, Bool.not_eq_true',
    List.isEmpty_eq_false_iff, List.all_eq_true]
  constructor
  · intro hright
    obtain ⟨⟨⟨digits, hname⟩, hne⟩, hdigits⟩ := hright
    rw [← hname, ← String.length_toList, List.drop_left] at hne hdigits
    exact ⟨digits, hne, hdigits, hname.symm⟩
  · intro hright
    obtain ⟨digits, hne, hdigits, hname⟩ := hright
    rw [hname, ← String.length_toList, List.drop_left]
    exact ⟨⟨⟨digits, rfl⟩, hne⟩, hdigits⟩

/-- The name has a shape that is kept for synthesized members. -/
def Synthetic (name : String) : Prop := Numbered bindingMarker name ∨ Numbered handlerMarker name

theorem synthetic_iff {name : String} :
    (isBindingName name || isHandlerName name) = true ↔ Synthetic name := by
  rw [Bool.or_eq_true]
  exact or_congr isNumbered_iff isNumbered_iff

/-! ### Keys that fit -/

/-- They differ from each other and from what is taken. -/
def Fresh {α : Type} (taken new : List α) : Prop := new.Nodup ∧ ∀ a ∈ new, a ∉ taken

/-- What comes later is fresh where what comes first counts as taken. -/
theorem fresh_append {α : Type} {taken taken' new new' : List α}
    (h : ∀ a, a ∈ taken' ↔ a ∈ new ∨ a ∈ taken) :
    Fresh taken (new ++ new') ↔ Fresh taken new ∧ Fresh taken' new' := by
  simp only [Fresh, List.nodup_append, List.mem_append, h]
  grind

theorem fresh_cons {α : Type} {taken taken' new : List α} {a : α}
    (h : ∀ b, b ∈ taken' ↔ b = a ∨ b ∈ taken) :
    Fresh taken (a :: new) ↔ a ∉ taken ∧ Fresh taken' new := by
  simp only [Fresh, List.nodup_cons, List.forall_mem_cons, h]
  grind

/-- Values of different entries differ where no two entries have one value. -/
theorem nodup_filterMap {α β : Type} {f : α → Option β} {l : List α} (hl : l.Nodup) :
    (l.filterMap f).Nodup ↔ ∀ a ∈ l, ∀ b ∈ l, ∀ c, f a = some c → f b = some c → a = b := by
  rw [List.Nodup, List.pairwise_filterMap]
  constructor
  · intro h a ha b hb c hac hbc
    by_contra hne
    have : Std.Symm fun a b => ∀ c, f a = some c → ∀ c', f b = some c' → c ≠ c' :=
      ⟨fun _ _ h c hc c' hc' => (h c' hc' c hc).symm⟩
    exact h.forall ha hb hne c hac c hbc rfl
  · intro h
    refine hl.imp_of_mem fun ha hb hne c hac c' hbc hcc => ?_
    subst hcc
    exact hne (h _ ha _ hb c hac hbc)

namespace Markup

variable (m : Markup)

/-- The identities that the source gives to the nodes of keys. -/
def idsOf (keys : List NodeKey) : List String := keys.filterMap fun key => (m.tree.get? key).bind (·.id)

/-- A walk inside of the nodes of a path can go on to keys, each of which it meets once. -/
@[mk_iff]
structure Fits (path : List NodeKey) (p : Progress) (keys : List NodeKey) : Prop where
  nodes : ∀ key ∈ keys, ∃ n, m.tree.get? key = some n ∧ ∀ property ∈ n.properties, ¬property.Reserved
  fresh : Fresh (path ++ p.finished) keys
  unsynthetic : ∀ id ∈ m.idsOf keys, ¬Synthetic id
  free : Fresh p.ids (m.idsOf keys)

/-- A walk has finished the keys and taken their identities. -/
structure Marks (keys : List NodeKey) (p q : Progress) : Prop where
  finished : ∀ key, key ∈ q.finished ↔ key ∈ keys ∨ key ∈ p.finished
  ids : ∀ id, id ∈ q.ids ↔ id ∈ m.idsOf keys ∨ id ∈ p.ids

variable {m} {path : List NodeKey} {p q q' : Progress} {keys keys' : List NodeKey}

theorem idsOf_append : m.idsOf (keys ++ keys') = m.idsOf keys ++ m.idsOf keys' :=
  List.filterMap_append

theorem idsOf_cons {n : Node} (hn : m.tree.get? n.key = some n) :
    m.idsOf (n.key :: keys) = n.id.toList ++ m.idsOf keys := by
  rw [idsOf, List.filterMap_cons, hn, Option.bind_some]
  cases n.id <;> rfl

theorem mem_idsOf {id : String} :
    id ∈ m.idsOf keys ↔ ∃ n, n.key ∈ keys ∧ m.tree.get? n.key = some n ∧ n.id = some id := by
  simp only [idsOf, List.mem_filterMap, Option.bind_eq_some_iff]
  constructor
  · intro hright
    obtain ⟨key, hkey, n, hn, hid⟩ := hright
    obtain ⟨-, rfl⟩ := Tree.get?_mem hn
    exact ⟨n, hkey, hn, hid⟩
  · intro hright
    obtain ⟨n, hkey, hn, hid⟩ := hright
    exact ⟨n.key, hkey, n, hn, hid⟩

/-- Identities differ where no two nodes have one identity. -/
theorem nodup_idsOf (hkeys : keys.Nodup) :
    (m.idsOf keys).Nodup ↔ ∀ n n' id, n.key ∈ keys → m.tree.get? n.key = some n →
      n'.key ∈ keys → m.tree.get? n'.key = some n' → n.id = some id → n'.id = some id →
      n.key = n'.key := by
  rw [idsOf, nodup_filterMap hkeys]
  constructor
  · intro h n n' id hkey hn hkey' hn' hid hid'
    exact h _ hkey _ hkey' id (by simp [hn, hid]) (by simp [hn', hid'])
  · intro h a ha b hb id hida hidb
    obtain ⟨n, hn, hid⟩ := Option.bind_eq_some_iff.mp hida
    obtain ⟨n', hn', hid'⟩ := Option.bind_eq_some_iff.mp hidb
    obtain ⟨-, rfl⟩ := Tree.get?_mem hn
    obtain ⟨-, rfl⟩ := Tree.get?_mem hn'
    exact h n n' id ha hn hb hn' hid hid'

theorem Marks.nil : m.Marks [] p p where
  finished := by simp
  ids := by simp [idsOf]

theorem Marks.append (h : m.Marks keys p q) (h' : m.Marks keys' q q') :
    m.Marks (keys ++ keys') p q' where
  finished := by
    intro key
    rw [h'.finished, h.finished, List.mem_append]
    tauto
  ids := by
    intro id
    rw [h'.ids, h.ids, idsOf_append, List.mem_append]
    tauto

theorem fits_nil : m.Fits path p [] where
  nodes := by simp
  fresh := by simp [Fresh]
  unsynthetic := by simp [idsOf]
  free := by simp [Fresh, idsOf]

/-- Keys fit one after the other where they fit together. -/
theorem fits_append (h : m.Marks keys p q) :
    m.Fits path p (keys ++ keys') ↔ m.Fits path p keys ∧ m.Fits path q keys' := by
  have hfresh : Fresh (path ++ p.finished) (keys ++ keys') ↔
      Fresh (path ++ p.finished) keys ∧ Fresh (path ++ q.finished) keys' :=
    fresh_append fun key => by simp only [List.mem_append, h.finished]; tauto
  have hfree : Fresh p.ids (m.idsOf keys ++ m.idsOf keys') ↔
      Fresh p.ids (m.idsOf keys) ∧ Fresh q.ids (m.idsOf keys') := fresh_append h.ids
  simp only [fits_iff, idsOf_append, List.forall_mem_append, hfresh, hfree]
  tauto

theorem Fits.left (h : m.Fits path p (keys ++ keys')) : m.Fits path p keys := by
  have hmarks : m.Marks keys p { p with finished := keys ++ p.finished, ids := m.idsOf keys ++ p.ids } :=
    ⟨fun _ => List.mem_append, fun _ => List.mem_append⟩
  exact ((fits_append hmarks).mp h).1

/-- A node fits with what is below it where it fits and the rest fits inside of it. -/
theorem fits_cons {n : Node} (hn : m.tree.get? n.key = some n) (hfinished : q.finished = p.finished)
    (hids : q.ids = n.id.toList ++ p.ids) :
    m.Fits path p (n.key :: keys) ↔
      (∀ property ∈ n.properties, ¬property.Reserved) ∧
        n.key ∉ path ++ p.finished ∧ (∀ id, n.id = some id → ¬Synthetic id ∧ id ∉ p.ids) ∧
        m.Fits (n.key :: path) q keys := by
  have hfresh : Fresh (path ++ p.finished) (n.key :: keys) ↔
      n.key ∉ path ++ p.finished ∧ Fresh (n.key :: path ++ q.finished) keys :=
    fresh_cons fun key => by simp [hfinished]
  have htaken : ∀ id, id ∈ q.ids ↔ id ∈ n.id.toList ∨ id ∈ p.ids := by simp [hids]
  have hfree : Fresh p.ids (n.id.toList ++ m.idsOf keys) ↔
      (∀ id, n.id = some id → id ∉ p.ids) ∧ Fresh q.ids (m.idsOf keys) := by
    rw [fresh_append htaken]
    cases n.id <;> simp [Fresh]
  have hnode : (∃ n', m.tree.get? n.key = some n' ∧ ∀ property ∈ n'.properties, ¬property.Reserved) ↔
      ∀ property ∈ n.properties, ¬property.Reserved := by
    simp [hn]
  simp only [fits_iff, idsOf_cons hn, List.forall_mem_cons, List.forall_mem_append, hfresh, hfree,
    hnode, Option.mem_toList, imp_and, forall_and]
  tauto

/-! ### Walks that cover keys -/

section
variable {α β : Type} {c c' : Prop}

variable (m) in
/-- Under a condition that no state plays a part in, the walk succeeds from where the keys fit,
and it walks these keys. -/
structure Covers (path : List NodeKey) (x : Walk α) (c : Prop) (keys : List NodeKey) : Prop where
  succeeds : ∀ p, (∃ a q, Gives x p a q) ↔ c ∧ m.Fits path p keys
  marks : ∀ p a q, Gives x p a q → m.Marks keys p q

theorem covers_pure {a : α} : m.Covers path (pure a) True [] where
  succeeds := fun p => ⟨fun _ => ⟨trivial, fits_nil⟩, fun _ => ⟨a, p, gives_pure.mpr ⟨rfl, rfl⟩⟩⟩
  marks := by
    intro p b q h
    obtain ⟨rfl, rfl⟩ := gives_pure.mp h
    exact .nil

/-- Walks one after the other, where what the first gives does not matter. -/
theorem Covers.bind {x : Walk α} {f : α → Walk β} (hx : m.Covers path x c keys)
    (hf : ∀ a, m.Covers path (f a) c' keys') : m.Covers path (x >>= f) (c ∧ c') (keys ++ keys') where
  succeeds := by
    intro p
    constructor
    · intro hright
      obtain ⟨b, q', h⟩ := hright
      obtain ⟨a, q, hfirst, hrest⟩ := gives_bind.mp h
      obtain ⟨hc, hfits⟩ := (hx.succeeds p).mp ⟨a, q, hfirst⟩
      obtain ⟨hc', hfits'⟩ := ((hf a).succeeds q).mp ⟨b, q', hrest⟩
      exact ⟨⟨hc, hc'⟩, (fits_append (hx.marks p a q hfirst)).mpr ⟨hfits, hfits'⟩⟩
    · intro hright
      obtain ⟨⟨hc, hc'⟩, hfits⟩ := hright
      obtain ⟨a, q, hfirst⟩ := (hx.succeeds p).mpr ⟨hc, hfits.left⟩
      obtain ⟨-, hfits'⟩ := (fits_append (hx.marks p a q hfirst)).mp hfits
      obtain ⟨b, q', hrest⟩ := ((hf a).succeeds q).mpr ⟨hc', hfits'⟩
      exact ⟨b, q', gives_bind.mpr ⟨a, q, hfirst, hrest⟩⟩
  marks := by
    intro p b q' h
    obtain ⟨a, q, hfirst, hrest⟩ := gives_bind.mp h
    exact (hx.marks p a q hfirst).append ((hf a).marks q b q' hrest)

/-- A walk that fails from everywhere covers what fits nowhere. -/
theorem covers_of_fails {x : Walk α} (hx : ∀ p a q, ¬Gives x p a q) (hk : ∀ p, c → ¬m.Fits path p keys) :
    m.Covers path x c keys where
  succeeds := by
    intro p
    constructor
    · intro hright
      obtain ⟨a, q, h⟩ := hright
      exact absurd h (hx p a q)
    · exact fun h => absurd h.2 (hk p h.1)
  marks := fun p a q h => absurd h (hx p a q)

/-- A last step that changes no state covers nothing more. -/
theorem Covers.andThen {x : Walk α} {f : α → β} (hx : m.Covers path x c keys) :
    m.Covers path (x >>= fun a => pure (f a)) c keys := by
  simpa using hx.bind fun _ => covers_pure

theorem Covers.guard {b : Prop} [Decidable b] {e : Error} {f : β → Walk α} {x : Walk α}
    (hx : m.Covers path x c keys) : m.Covers path (if b then throw e >>= f else x) (¬b ∧ c) keys where
  succeeds := by
    intro p
    simp only [gives_guard, exists_and_left, hx.succeeds, and_assoc]
  marks := fun p a q h => hx.marks p a q (gives_guard.mp h).2

theorem covers_mapM {f : α → Walk β} {c : α → Prop} {keys : α → List NodeKey} {as : List α}
    (hf : ∀ a, m.Covers path (f a) (c a) (keys a)) :
    m.Covers path (as.mapM f) (∀ a ∈ as, c a) (as.flatMap keys) := by
  induction as with
  | nil => simpa using covers_pure (a := [])
  | cons a rest ih =>
    rw [List.mapM_cons, List.flatMap_cons]
    simpa using (hf a).bind fun _ => ih.andThen

end

end Markup
end Lowering
