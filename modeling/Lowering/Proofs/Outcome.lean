/-! Steps that may fail.

A sequence of steps succeeds where its first step does and the rest does with what that
gives. -/
namespace Lowering

variable {ε α β : Type}

theorem bind_eq_ok {x : Except ε α} {f : α → Except ε β} {b : β} :
    x >>= f = .ok b ↔ ∃ a, x = .ok a ∧ f a = .ok b := by
  cases x with
  | error e =>
    constructor
    · intro h
      cases h
    · intro hright
      obtain ⟨a, h, -⟩ := hright
      cases h
  | ok a =>
    constructor
    · intro h
      exact ⟨a, rfl, h⟩
    · intro hright
      obtain ⟨_, ha, h⟩ := hright
      obtain rfl := Except.ok.inj ha
      exact h

theorem map_eq_ok {x : Except ε α} {f : α → β} {b : β} :
    x.map f = .ok b ↔ ∃ a, x = .ok a ∧ f a = b := by
  cases x <;> simp [Except.map]

/-- What is kept of results is the same where it is for every value that a step gives. -/
theorem map_bind_congr {γ : Type} {x : Except ε α} {f f' : α → Except ε β} {g : β → γ}
    (h : ∀ a, (f a).map g = (f' a).map g) : (x >>= f).map g = (x >>= f').map g := by
  cases x with
  | error e => rfl
  | ok a => exact h a

theorem bind_eq_error {x : Except ε α} {f : α → Except ε β} {e : ε} :
    x >>= f = .error e ↔ x = .error e ∨ ∃ a, x = .ok a ∧ f a = .error e := by
  cases x with
  | error e' =>
    constructor
    · intro h
      obtain rfl := Except.error.inj h
      exact .inl rfl
    · intro hright
      obtain h | ⟨_, h, -⟩ := hright
      · obtain rfl := Except.error.inj h
        rfl
      · cases h
  | ok a =>
    constructor
    · exact fun h => .inr ⟨a, rfl, h⟩
    · intro hright
      obtain h | ⟨_, ha, h⟩ := hright
      · cases h
      · obtain rfl := Except.ok.inj ha
        exact h

theorem map_eq_error {x : Except ε α} {f : α → β} {e : ε} : x.map f = .error e ↔ x = .error e := by
  cases x <;> simp [Except.map]

theorem mapError_eq_ok {ε' : Type} {x : Except ε α} {f : ε → ε'} {a : α} :
    x.mapError f = .ok a ↔ x = .ok a := by
  cases x with
  | error e =>
    constructor
    · intro h
      cases h
    · intro h
      cases h
  | ok b =>
    constructor
    · exact fun h => congrArg Except.ok (Except.ok.inj h)
    · exact fun h => congrArg Except.ok (Except.ok.inj h)

/-- Where no step fails, all that is left of the failures is the list of what is given. -/
theorem mapM_eq_map {f : α → Except ε β} {g : α → β} {as : List α} (h : ∀ a ∈ as, f a = .ok (g a)) :
    as.mapM f = .ok (as.map g) := by
  induction as with
  | nil => rfl
  | cons a rest ih =>
    obtain ⟨ha, hrest⟩ := List.forall_mem_cons.mp h
    rw [List.mapM_cons, ha, ih hrest]
    rfl

/-- Steps of which each gives something good are steps that give good things together. -/
theorem exists_mapM_iff {P : β → Prop} {f : α → Except ε β} {as : List α} :
    (∃ bs, as.mapM f = .ok bs ∧ ∀ b ∈ bs, P b) ↔ ∀ a ∈ as, ∃ b, f a = .ok b ∧ P b := by
  induction as with
  | nil => exact ⟨fun _ _ h => (nomatch h), fun _ => ⟨[], rfl, fun _ h => (nomatch h)⟩⟩
  | cons a rest ih =>
    rw [List.forall_mem_cons, ← ih, List.mapM_cons]
    constructor
    · intro h
      obtain ⟨bs, hbs, hall⟩ := h
      obtain ⟨b, hb, hbs⟩ := bind_eq_ok.mp hbs
      obtain ⟨rest', hrest, hbs⟩ := bind_eq_ok.mp hbs
      obtain rfl := Except.ok.inj hbs
      obtain ⟨hfirst, hothers⟩ := List.forall_mem_cons.mp hall
      exact ⟨⟨b, hb, hfirst⟩, rest', hrest, hothers⟩
    · intro h
      obtain ⟨⟨b, hb, hfirst⟩, rest', hrest, hothers⟩ := h
      rw [hb, hrest]
      exact ⟨b :: rest', rfl, List.forall_mem_cons.mpr ⟨hfirst, hothers⟩⟩

end Lowering
