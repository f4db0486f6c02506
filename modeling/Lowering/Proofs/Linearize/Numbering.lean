import Lowering.Proofs.Linearize.Coverage
import Lowering.Proofs.Linearize.Fitting
import Lowering.Proofs.Linearize.Laws

/-! How identities are numbered.

A walk takes the identities that the source gives and numbers the others from zero, and it
notes a field for each. `Progress.Tallied` says that its fields agree with what it has taken
and with where its numbers stand; a law of walks keeps it so. Since the fields are those of
the instructions in their order, the numbers follow the instructions, and no two of the names
that are given to fields and handlers are the same (`identities_numbered`). -/
namespace Lowering

/-! ### Synthesized names -/

/-- The digits after a marker tell the number. -/
theorem append_repr_inj {marker : String} {i j : Nat} (h : marker ++ i.repr = marker ++ j.repr) :
    i = j := by
  have hdigits := String.append_right_inj marker |>.mp h
  have hvalue := congrArg (fun s : String => Nat.ofDigitChars 10 s.toList 0) hdigits
  simpa using hvalue

theorem bindingName_inj {i j : Nat} (h : bindingName i = bindingName j) : i = j := append_repr_inj h

theorem handlerName_inj {i j : Nat} (h : handlerName i = handlerName j) : i = j := append_repr_inj h

theorem numbered_append_repr (marker : String) (i : Nat) : Numbered marker (marker ++ i.repr) := by
  refine ⟨Nat.toDigits 10 i, Nat.toDigits_ne_nil, fun c hc => ?_, ?_⟩
  · exact Nat.isDigit_of_mem_toDigits (b := 10) (by decide) (by decide) hc
  · rw [String.toList_append, Nat.toList_repr]

theorem synthetic_bindingName (i : Nat) : Synthetic (bindingName i) :=
  .inl (numbered_append_repr bindingMarker i)

theorem synthetic_handlerName (i : Nat) : Synthetic (handlerName i) :=
  .inr (numbered_append_repr handlerMarker i)

/-- The markers differ in their second letter. -/
theorem bindingName_ne_handlerName (i j : Nat) : bindingName i ≠ handlerName j := by
  intro h
  have hletter := congrArg (fun s : String => s.toList[1]?) h
  simp [bindingName, handlerName, bindingMarker, handlerMarker] at hletter

/-- The names of the first so many synthesized fields or handlers are different. -/
theorem nodup_names {name : Nat → String} (hinj : ∀ {i j : Nat}, name i = name j → i = j) (n : Nat) :
    ((List.range n).map name).Nodup :=
  List.nodup_range.map fun _ _ => hinj

namespace Markup

/-! ### Names that a walk gives -/

/-- The fields are named by the identities that were taken and, one after the other, by the
numbers that were given. -/
structure Progress.Tallied (p : Progress) : Prop where
  numbered : (p.bindings.filter (!·.exposed)).map (·.name) = (List.range p.next).map bindingName
  taken : (p.bindings.filter (·.exposed)).map (·.name) = p.ids.reverse
  once : p.ids.Nodup
  unsynthetic : ∀ id ∈ p.ids, ¬Synthetic id

/-- The walk keeps the tally. -/
def Tallies {α : Type} (x : Walk α) : Prop :=
  ∀ p a p', Gives x p a p' → p.Tallied → p'.Tallied

variable {m : Markup}

theorem bind_tallies (n : Node) : Tallies (m.bind n) := by
  intro p identity p' h hp
  unfold bind at h
  cases hid : n.id with
  | some id =>
    rw [hid] at h
    obtain ⟨_, q, htake, h⟩ := gives_bind.mp h
    obtain ⟨_, _, hmodify, h⟩ := gives_bind.mp h
    obtain ⟨rfl, rfl⟩ := gives_pure.mp h
    obtain rfl := gives_modify.mp hmodify
    obtain ⟨hfree, rfl, rfl⟩ := gives_takeId.mp htake
    simp only [Bool.or_eq_true, decide_eq_true_eq, not_or] at hfree
    have hnew : ¬Synthetic id := fun hs => by
      simpa [hfree.1] using synthetic_iff.mpr hs
    constructor
    · simpa using hp.numbered
    · simpa using hp.taken
    · exact List.nodup_cons.mpr ⟨hfree.2, hp.once⟩
    · exact List.forall_mem_cons.mpr ⟨hnew, hp.unsynthetic⟩
  | none =>
    rw [hid] at h
    obtain ⟨_, q, hmake, h⟩ := gives_bind.mp h
    obtain ⟨_, _, hmodify, h⟩ := gives_bind.mp h
    obtain ⟨rfl, rfl⟩ := gives_pure.mp h
    obtain rfl := gives_modify.mp hmodify
    obtain ⟨rfl, rfl⟩ := gives_makeId.mp hmake
    constructor
    · simpa [List.range_succ] using hp.numbered
    · simpa using hp.taken
    · exact hp.once
    · exact hp.unsynthetic

theorem tallies_law : m.Law Tallies where
  pure := by
    intro α a p b p' h hp
    obtain ⟨-, rfl⟩ := gives_pure.mp h
    exact hp
  bind := by
    intro α β x f hx hf p b p' h hp
    obtain ⟨a, q, hfirst, hrest⟩ := gives_bind.mp h
    exact hf a q b p' hrest (hx p a q hfirst hp)
  throw := fun _ _ _ _ h => absurd h not_gives_throw
  get := by
    intro p q p' h hp
    obtain ⟨-, rfl⟩ := gives_get.mp h
    exact hp
  finish := by
    intro key p u p' h hp
    obtain rfl := gives_modify.mp h
    exact ⟨hp.numbered, hp.taken, hp.once, hp.unsynthetic⟩
  identity := bind_tallies

/-- The fields of a linearized tree are those that its walk ends with. -/
theorem exists_tallied {l : Linearized} (h : m.linearize = .ok l) :
    ∃ p : Progress, p.Tallied ∧ p.bindings = l.bindings := by
  obtain ⟨root, -, h⟩ := bind_eq_ok.mp h
  obtain ⟨⟨i, p⟩, hvisit, h⟩ := bind_eq_ok.mp h
  obtain rfl : (⟨i, p.bindings, m.handlers⟩ : Linearized) = l := by
    dsimp only at h
    split at h
    · cases h
    · exact Except.ok.inj h
  exact ⟨p, tallies_law.visit_root root {} i p hvisit ⟨rfl, rfl, .nil, nofun⟩, rfl⟩

namespace Rendered

variable {l : Linearized}

/-- Below the root every instruction is assigned to a field. -/
theorem map_field? (h : m.Rendered l) :
    (l.root.children.flatMap Instruction.flatten).map (·.field?) = l.bindings.map some := by
  rw [h.bindings, List.map_filterMap_some_eq_filter_map_isSome]
  refine (List.filter_eq_self.mpr fun f hf => ?_).symm
  obtain ⟨j, hj, rfl⟩ := List.mem_map.mp hf
  obtain ⟨n, hn⟩ := h.below j hj
  obtain ⟨d, hd, -⟩ := hn.named.identity
  rw [Instruction.field?, hd]
  rfl

end Rendered

/-- The handlers are named by their positions. -/
theorem handlers_names (m : Markup) :
    m.handlers.map (·.name) = (List.range m.events.length).map handlerName := by
  rw [handlers, List.map_map, List.range_eq_range', ← List.zipIdx_map_snd, List.map_map]
  rfl

variable {m : Markup} {l : Linearized}

/-- What the source does not name is named by consecutive numbers. -/
theorem synthesized_names (h : m.linearize = .ok l) :
    (l.bindings.filter (!·.exposed)).map (·.name) =
      (List.range (l.bindings.filter (!·.exposed)).length).map bindingName := by
  obtain ⟨p, hp, hbindings⟩ := exists_tallied h
  have hlength := congrArg List.length hp.numbered
  rw [List.length_map, List.length_map, List.length_range] at hlength
  rw [← hbindings, hp.numbered, hlength]

theorem handlers_numbered (h : m.linearize = .ok l) :
    l.handlers.map (·.name) = (List.range m.events.length).map handlerName := by
  rw [(linearize_renders h).handlers, handlers_names]

/-- The given names stand apart from the numbered ones, which the source cannot give. -/
theorem names_nodup (h : m.linearize = .ok l) :
    (l.bindings.map (·.name) ++ l.handlers.map (·.name)).Nodup := by
  obtain ⟨p, hp, hbindings⟩ := exists_tallied h
  have hsplit : (p.ids.reverse ++ (List.range p.next).map bindingName).Perm
      (p.bindings.map (·.name)) := by
    rw [← hp.taken, ← hp.numbered, ← List.map_append]
    exact (List.filter_append_perm _ _).map _
  rw [← hbindings, handlers_numbered h, ← (hsplit.append_right _).nodup_iff, List.append_assoc]
  refine List.nodup_append.mpr ⟨List.nodup_reverse.mpr hp.once, ?_, ?_⟩
  · refine List.nodup_append.mpr ⟨nodup_names bindingName_inj _, nodup_names handlerName_inj _, ?_⟩
    rintro _ hi _ hj
    obtain ⟨i, -, rfl⟩ := List.mem_map.mp hi
    obtain ⟨j, -, rfl⟩ := List.mem_map.mp hj
    exact bindingName_ne_handlerName i j
  · rintro id hid _ hname rfl
    apply hp.unsynthetic id (List.mem_reverse.mp hid)
    rcases List.mem_append.mp hname with hname | hname
    · obtain ⟨i, -, rfl⟩ := List.mem_map.mp hname
      exact synthetic_bindingName i
    · obtain ⟨i, -, rfl⟩ := List.mem_map.mp hname
      exact synthetic_handlerName i

end Markup

/-- **The fields are those of the instructions below the root in their order; what the source
does not name is numbered in this order from zero; and no two names of fields and handlers are
the same.** -/
theorem identities_numbered (m : Markup) (l : Linearized) (h : m.linearize = .ok l) :
    (l.root.flatten.tail.map (·.field?) = l.bindings.map some ∧ l.root.field? = none) ∧
      (∃ n, (l.bindings.filter (!·.exposed)).map (·.name) = (List.range n).map bindingName) ∧
      (l.bindings.map (·.name) ++ l.handlers.map (·.name)).Nodup ∧
      l.handlers.map (·.name) = (List.range m.events.length).map handlerName := by
  have hl := Markup.linearize_renders h
  obtain ⟨r, hr⟩ := hl.root
  refine ⟨⟨?_, ?_⟩, ⟨_, Markup.synthesized_names h⟩, Markup.names_nodup h, Markup.handlers_numbered h⟩
  · rw [Instruction.flatten_eq, List.tail_cons, hl.map_field?]
  · rw [Instruction.field?, hr.identity]
    rfl

/-- A view with a heading, two fields and a button. The first field holds an icon, and the source
names this field and the button. -/
def signIn : Markup where
  owner := ⟨"app.SignIn"⟩
  tree := {
    root := ⟨0⟩
    nodes := [
      { key := ⟨0⟩, target := ⟨"ui.View"⟩
        properties := [⟨"heading", .node ⟨1⟩⟩, ⟨"fields", .nodes [⟨2⟩, ⟨3⟩]⟩], content := [⟨5⟩] },
      { key := ⟨1⟩, target := ⟨"ui.Label"⟩ },
      { key := ⟨2⟩, target := ⟨"ui.Field"⟩, id := some "user", content := [⟨4⟩] },
      { key := ⟨3⟩, target := ⟨"ui.Field"⟩ },
      { key := ⟨4⟩, target := ⟨"ui.Icon"⟩ },
      { key := ⟨5⟩, target := ⟨"ui.Button"⟩, id := some "submit" }] }
  events := [⟨⟨5⟩, "click", none, [], none⟩, ⟨⟨2⟩, "change", none, [], none⟩,
    ⟨⟨5⟩, "focus", none, [], none⟩]

/-- The icon is numbered before the second field, which comes after it. -/
theorem signIn_identities_numbered :
    ∃ l, signIn.linearize = .ok l ∧
      l.bindings.map (fun b => (b.name, b.node)) =
        [("$ID0", ⟨1⟩), ("user", ⟨2⟩), ("$ID1", ⟨4⟩), ("$ID2", ⟨3⟩), ("submit", ⟨5⟩)] ∧
      l.root.flatten.tail.map (·.field?) = l.bindings.map some ∧
      (l.bindings.map (·.name) ++ l.handlers.map (·.name)).Nodup := by
  obtain ⟨⟨hfields, -⟩, -, hnodup, -⟩ := identities_numbered signIn _ rfl
  exact ⟨_, rfl, rfl, hfields, hnodup⟩

end Lowering
