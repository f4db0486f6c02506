import Lowering.Proofs.Instruction.Layout
import Lowering.Proofs.Instruction.Reading
import Lowering.Proofs.Outcome

/-! What is accepted as an array.

A reading that succeeds has taken some tokens off the front of its array. `Explained` says that
they are the ones which what it gives is spelled by, and that the others are left; the parts of a
node are explained in the way they are read. What a nested array says is read before the array
around it, so that the law of all levels goes from the inside out (`faithful`). Whatever array is
read is thus one of the outline that it is read as (`accepted_as_written`). -/
namespace Lowering

variable {ρ α β : Type}

/-- What holds of a token as soon as it holds of the tokens in its array holds of all. -/
theorem Token.nesting {P : Token ρ → Prop} (flat : ∀ t : Token ρ, (∀ ts, t ≠ .array ts) → P t)
    (array : ∀ ts, (∀ t ∈ ts, P t) → P (.array ts)) : ∀ t : Token ρ, P t
  | .array ts => array ts fun t _ => nesting flat array t
  | .type _ | .count _ | .text _ | .mark _ | .null | .literal _ | .expression _ | .handler _ =>
    flat _ nofun
termination_by t => sizeOf t
decreasing_by
  have hlt := List.sizeOf_lt_of_mem ‹t ∈ ts›
  simp only [Token.array.sizeOf_spec]
  omega

namespace Outline

/-! ### Readings and the tokens they take -/

/-- What is read from the array in the token, if it is one, is spelled by that array. -/
structure Faithful (t : Token ρ) : Prop where
  array : ∀ nested, (itemOf t).nested = some nested → ∃ ts, t = .array ts ∧
    (∀ o, nested.asNode = .ok o → Spells o ts) ∧ ∀ os, nested.asSequence = .ok os → SpellsAll os ts

/-- From faithful tokens the reading takes some off the front that stand in the relation to what it
gives, and it leaves the others. -/
def Explained (read : Reading ρ α) (P : α → List (Token ρ) → Prop) : Prop :=
  ∀ c c' ts a, c.rest = itemsOf ts → (∀ t ∈ ts, Faithful t) → read c = .ok (a, c') →
    ∃ us vs, ts = us ++ vs ∧ c'.rest = itemsOf vs ∧ P a us

section
variable {read : Reading ρ α} {P : α → List (Token ρ) → Prop} {R : β → List (Token ρ) → Prop}
  {f : α → Reading ρ β}

theorem explained_pure {a : α} (h : P a []) : Explained (pure a) P := by
  intro c c' ts b hc hts hread
  obtain ⟨rfl, rfl⟩ := Prod.mk.inj (Except.ok.inj hread)
  exact ⟨[], ts, rfl, hc, h⟩

theorem explained_unexpected (what : String) : Explained (unexpected what) P :=
  fun _ _ _ _ _ _ hread => nomatch hread

/-- The tokens of the second reading follow those of the first. -/
theorem Explained.bind (h : Explained read P)
    (hf : ∀ a us, P a us → Explained (f a) fun b vs => R b (us ++ vs)) : Explained (read >>= f) R := by
  intro c c' ts b hc hts hread
  obtain ⟨⟨a, c₁⟩, hfirst, hrest⟩ := bind_eq_ok.mp (show read c >>= (fun r => f r.1 r.2) = _ from hread)
  obtain ⟨us, vs, rfl, hc₁, ha⟩ := h c c₁ ts a hc hts hfirst
  obtain ⟨vs, ws, rfl, hc', hb⟩ := hf a us ha c₁ c' vs b hc₁ (List.forall_mem_append.mp hts).2 hrest
  exact ⟨us ++ vs, ws, (List.append_assoc us vs ws).symm, hc', hb⟩

theorem explained_next {what : String} {g : Item ρ → Reading ρ β}
    (h : ∀ t, Faithful t → Explained (g (itemOf t)) fun b vs => R b (t :: vs)) :
    Explained (next what >>= g) R := by
  have hnext : Explained (next what) fun (i : Item ρ) us => ∃ t, Faithful t ∧ i = itemOf t ∧ us = [t] := by
    intro c c' ts i hc hts hread
    obtain ⟨position, rest⟩ := c
    cases ts with
    | nil =>
      obtain rfl : rest = [] := hc
      cases hread
    | cons t ts =>
      obtain rfl : rest = itemOf t :: itemsOf ts := hc
      obtain ⟨rfl, rfl⟩ := Prod.mk.inj (Except.ok.inj hread)
      exact ⟨[t], ts, rfl, rfl, t, hts t List.mem_cons_self, rfl, rfl⟩
  refine hnext.bind fun i us hi => ?_
  obtain ⟨t, ht, rfl, rfl⟩ := hi
  exact h t ht

/-- A result that is at hand takes no tokens. -/
theorem explained_lift {x : Except DecodeError α} (h : ∀ a, x = .ok a → Explained (f a) R) :
    Explained (liftM x >>= f) R := by
  have hlift : Explained (liftM x : Reading ρ α) fun a us => x = .ok a ∧ us = [] := by
    intro c c' ts a hc hts hread
    cases x with
    | error e => cases hread
    | ok b =>
      obtain ⟨rfl, rfl⟩ := Prod.mk.inj (Except.ok.inj hread)
      exact ⟨[], ts, rfl, hc, rfl, rfl⟩
  refine hlift.bind fun a us ha => ?_
  obtain ⟨hx, rfl⟩ := ha
  exact h a hx

theorem explained_count : Explained (ρ := ρ) count fun n us => us = [.count n] := by
  refine explained_next fun t ht => ?_
  rw [itemOf_token]
  split
  next n => exact explained_pure rfl
  next => exact explained_unexpected _

theorem explained_string (what : String) : Explained (ρ := ρ) (string what) fun s us => us = [.text s] := by
  refine explained_next fun t ht => ?_
  rw [itemOf_token]
  split
  next s => exact explained_pure rfl
  next => exact explained_unexpected _

/-- Reading the same thing several times, where `P` is about all that is read. -/
theorem Explained.times {P : List α → List (Token ρ) → Prop}
    (h : Explained read fun a us => ∀ as vs, P as vs → P (a :: as) (us ++ vs)) (hnil : P [] []) (n : Nat) :
    Explained (Outline.times read n) fun as us => as.length = n ∧ P as us := by
  induction n with
  | zero => exact explained_pure ⟨rfl, hnil⟩
  | succ n ih =>
    refine h.bind fun a us ha => ih.bind fun as vs has => explained_pure ?_
    obtain ⟨hlength, has⟩ := has
    rw [List.append_nil]
    exact ⟨congrArg (· + 1) hlength, ha as vs has⟩

end

/-! ### Parts of a node -/

theorem explained_property :
    Explained (ρ := ρ) property fun p us =>
      ∀ rest ps, SpellsProperties rest ps → SpellsProperties (p :: rest) (us ++ ps) := by
  refine (explained_string _).bind fun name us hname => ?_
  subst hname
  refine explained_next fun marker _ => explained_next fun value hvalue => ?_
  rw [itemOf_token, itemOf_token]
  split
  next => exact explained_pure fun rest ps h => .simple name value h
  next nested hnested _ =>
    obtain ⟨ts, rfl, hnode, -⟩ := hvalue.array nested hnested
    exact explained_lift fun o ho => explained_pure fun rest ps h => .node name (hnode o ho) h
  next nested hnested _ =>
    obtain ⟨ts, rfl, -, hnodes⟩ := hvalue.array nested hnested
    exact explained_lift fun os hos => explained_pure fun rest ps h => .nodes name (hnodes os hos) h
  next => exact explained_unexpected _

theorem explained_style :
    Explained (ρ := ρ) style fun s us => us = [.text s.1, .mark true, s.2] := by
  refine (explained_string _).bind fun name us hname => ?_
  subst hname
  refine explained_next fun marker _ => ?_
  rw [itemOf_token]
  split
  next =>
    refine explained_next fun value _ => explained_pure ?_
    rw [itemOf_token]
    rfl
  next => exact explained_unexpected _

theorem explained_listener :
    Explained (ρ := ρ) listener fun l us => us = [.text l.1, .handler l.2] := by
  refine (explained_string _).bind fun event us hevent => ?_
  subst hevent
  refine explained_next fun handler _ => ?_
  rw [itemOf_token]
  split
  next => exact explained_pure rfl
  next => exact explained_unexpected _

/-- Where every item takes the tokens that are written for it, all of them do. -/
theorem Explained.flatMap {read : Reading ρ α} {tokens : α → List (Token ρ)}
    (h : Explained read fun a us => us = tokens a) (n : Nat) :
    Explained (Outline.times read n) fun as us => as.length = n ∧ us = as.flatMap tokens := by
  refine Explained.times (P := fun as us => us = as.flatMap tokens) ?_ rfl n
  intro c c' ts a hc hts hread
  obtain ⟨us, vs, hsplit, hc', rfl⟩ := h c c' ts a hc hts hread
  refine ⟨_, vs, hsplit, hc', fun as vs hvs => ?_⟩
  rw [hvs, List.flatMap_cons]

/-- The identity is spelled as the property that it is taken from. -/
theorem spells_splitIdentity {properties : List (String × OutlineValue ρ)} {us : List (Token ρ)}
    (h : SpellsProperties properties us) :
    ∃ ps, us = writtenIdentity (splitIdentity properties).1 ++ ps ∧
      SpellsProperties (splitIdentity properties).2 ps ∧
      properties.length = (splitIdentity properties).1.toList.length + (splitIdentity properties).2.length := by
  unfold splitIdentity
  split
  next name field rest =>
    split
    next =>
      cases h with
      | simple _ _ hrest => exact ⟨_, rfl, hrest, Nat.add_comm _ 1⟩
    next => exact ⟨us, rfl, h, (Nat.zero_add _).symm⟩
  next => exact ⟨us, rfl, h, (Nat.zero_add _).symm⟩

/-- The body of a node without its type, and before there is content. -/
theorem explained_body (target : Option ρ) :
    Explained (body target) fun o us => o.target = target ∧ o.content = [] ∧
      ∃ ps, SpellsProperties o.properties ps ∧
        us = .count (o.identity.toList.length + o.properties.length) ::
          (writtenIdentity o.identity ++ ps ++ (writtenStyles o.styles ++ writtenListeners o.listeners)) := by
  have hbody : body target = (do
      let properties ← Outline.times property (← count)
      let styles ← Outline.times style (← count)
      let listeners ← Outline.times listener (← count)
      return { target, identity := (splitIdentity properties).1, properties := (splitIdentity properties).2
               styles, listeners, content := [] }) := rfl
  rw [hbody]
  refine explained_count.bind fun l us hl => (explained_property.times .nil l).bind fun properties ps hps =>
    explained_count.bind fun m us' hm => (explained_style.flatMap m).bind fun styles ss hss =>
    explained_count.bind fun n us'' hn => (explained_listener.flatMap n).bind fun listeners ls hls =>
    explained_pure ⟨rfl, rfl, ?_⟩
  obtain ⟨rfl, hps⟩ := hps
  obtain ⟨rfl, rfl⟩ := hss
  obtain ⟨rfl, rfl⟩ := hls
  obtain ⟨ps', rfl, hspells, hlength⟩ := spells_splitIdentity hps
  refine ⟨ps', hspells, ?_⟩
  rw [hl, hm, hn, hlength]
  simp [writtenStyles, writtenListeners]

theorem explained_node : Explained (ρ := ρ) node Spells := by
  refine explained_next fun t _ => ?_
  rw [itemOf_token]
  split
  next ref _ =>
    refine (explained_body (some ref)).bind fun o us ho => explained_next fun content hcontent => ?_
    obtain ⟨target, identity, properties, styles, listeners, _⟩ := o
    obtain ⟨rfl, rfl, ps, hps, rfl⟩ := ho
    rw [itemOf_token]
    split
    next => exact explained_pure (.node hps .null)
    next nested _ hnested =>
      obtain ⟨ts, rfl, -, hnodes⟩ := hcontent.array nested hnested
      exact explained_lift fun os hos => explained_pure (.node hps (.array (hnodes os hos)))
    next => exact explained_unexpected _
  next => exact explained_unexpected _

theorem explained_nodes (rounds : Nat) : Explained (ρ := ρ) (nodes rounds) SpellsAll := by
  induction rounds with
  | zero => exact explained_pure .nil
  | succ rounds ih =>
    have hmore : Explained (ρ := ρ) (node >>= fun o => nodes rounds >>= fun os => pure (o :: os)) SpellsAll := by
      refine explained_node.bind fun o us ho => ih.bind fun os vs hos => explained_pure ?_
      rw [List.append_nil]
      exact .cons ho hos
    intro c c' ts os hc hts hread
    replace hread : (if c.rest.isEmpty then pure []
      else node >>= fun o => nodes rounds >>= fun os => pure (o :: os) : Reading ρ (List (Outline ρ))) c =
        .ok (os, c') := hread
    by_cases hend : c.rest.isEmpty = true
    · rw [if_pos hend] at hread
      exact explained_pure .nil c c' ts os hc hts hread
    · rw [if_neg hend] at hread
      exact hmore c c' ts os hc hts hread

/-! ### Whole arrays -/

theorem Explained.whole {read : Reading ρ α} {P : α → List (Token ρ) → Prop} {ts : List (Token ρ)} {a : α}
    (h : Explained read P) (hts : ∀ t ∈ ts, Faithful t) (hread : Outline.whole read (itemsOf ts) = .ok a) :
    P a ts := by
  rw [Outline.whole] at hread
  cases hall : read ⟨0, itemsOf ts⟩ with
  | error e =>
    rw [hall] at hread
    cases hread
  | ok r =>
    obtain ⟨b, c⟩ := r
    simp only [hall] at hread
    split at hread
    next hend =>
      obtain rfl := Except.ok.inj hread
      obtain ⟨us, vs, rfl, hc, hb⟩ := h _ c ts b rfl hts hall
      rw [hc, List.isEmpty_iff, itemsOf_eq, List.map_eq_nil_iff] at hend
      rw [hend, List.append_nil]
      exact hb
    next => cases hread

/-- Every token is faithful, the tokens within its array first. -/
theorem faithful (t : Token ρ) : Faithful t := by
  induction t using Token.nesting with
  | flat t hflat =>
    refine ⟨fun nested hnested => ?_⟩
    cases t with
    | array ts => exact absurd rfl (hflat ts)
    | _ => cases hnested
  | array ts ih =>
    refine ⟨fun nested hnested => ⟨ts, rfl, ?_⟩⟩
    simp only [itemOf, Option.some.injEq] at hnested
    subst hnested
    exact ⟨fun o ho => explained_node.whole ih ho, fun os hos => (explained_nodes _).whole ih hos⟩

theorem spells_of_ofTokens {ts : List (Token ρ)} {o : Outline ρ} (h : ofTokens ts = .ok o) : Spells o ts :=
  explained_node.whole (fun t _ => faithful t) h

end Outline

/-- **An array that is read as an outline is the one in which the outline is written, but for the
way in which empty content is written at any depth; and so two arrays that are read as one outline
differ in nothing else.** -/
theorem accepted_as_written (ts : List (Token ρ)) (o : Outline ρ) (h : Outline.ofTokens ts = .ok o) :
    Outline.Alike ts o.written ∧ ∀ us, Outline.ofTokens us = .ok o → Outline.Alike ts us := by
  have hspells := Outline.spells_of_ofTokens h
  exact ⟨hspells.alike hspells.written, fun us hus => hspells.alike (Outline.spells_of_ofTokens hus)⟩

/-- An array of a box with an icon, given the tokens for the content of each. -/
def iconBox (boxContent iconContent : Token String) : List (Token String) :=
  [.type "ui.Box", .count 2, .text exposedProperty, .mark true, .text "box",
    .text "icon", .mark false, .array [.type "ui.Icon", .count 0, .count 0, .count 0, iconContent],
    .count 0, .count 0, boxContent]

/-- Of the two the one or the other may write that it is empty as null. -/
theorem iconBox_alike :
    ∃ o, Outline.ofTokens (iconBox (.array []) .null) = .ok o ∧ o.written = iconBox .null .null ∧
      Outline.ofTokens (iconBox .null (.array [])) = .ok o ∧
      Outline.Alike (iconBox (.array []) .null) o.written ∧
      Outline.Alike (iconBox (.array []) .null) (iconBox .null (.array [])) := by
  obtain ⟨hwritten, hsame⟩ := accepted_as_written (iconBox (.array []) .null) _ rfl
  exact ⟨_, rfl, rfl, rfl, hwritten, hsame _ rfl⟩

end Lowering
