import Lowering.Proofs.Instruction.RoundTrip

/-! Arrays that are cut off or go on.

A reading goes through an array from its front, and what stands behind the items that it has
come to plays no part. `Steady` says so: on the front of an array a reading does what it does on
the whole array, unless the items run out. Every part of a node is read steadily, because its
steps are. Since an encoded instruction is read to its last token and no further, a shorter front
of it runs out, and what follows it is left over (`cut_or_overlong_detected`). -/
namespace Lowering

variable {ρ α β : Type}

namespace Outline

/-! ### Readings that do not look ahead -/

/-- The cursor with more items behind those that are left. -/
def Cursor.before (c : Cursor ρ) (more : List (Item ρ)) : Cursor ρ := ⟨c.position, c.rest ++ more⟩

/-- The items run out, or with more items behind them the reading does the same. -/
def Steady (read : Reading ρ α) : Prop :=
  ∀ c more, (∃ what, read c = .error (.unexpectedEnd what)) ∨
    read (c.before more) = (read c).map fun r => (r.1, r.2.before more)

theorem steady_pure (a : α) : Steady (ρ := ρ) (pure a) := fun _ _ => .inr rfl

theorem steady_next (what : String) : Steady (ρ := ρ) (next what) := by
  intro c more
  obtain ⟨position, rest⟩ := c
  cases rest with
  | nil => exact .inl ⟨what, rfl⟩
  | cons item rest => exact .inr rfl

/-- The position is that of the last item, whatever comes after it. -/
theorem steady_unexpected (what : String) : Steady (ρ := ρ) (unexpected (α := α) what) :=
  fun _ _ => .inr rfl

/-- What an array says does not depend on what stands behind it. -/
theorem steady_lift (x : Except DecodeError α) : Steady (ρ := ρ) (liftM x) := by
  intro c more
  cases x with
  | error e => exact .inr rfl
  | ok a => exact .inr rfl

theorem Steady.bind {read : Reading ρ α} {f : α → Reading ρ β} (h : Steady read) (hf : ∀ a, Steady (f a)) :
    Steady (read >>= f) := by
  intro c more
  have hbind : ∀ c : Cursor ρ, (read >>= f) c = read c >>= fun r => f r.1 r.2 := fun _ => rfl
  simp only [hbind]
  obtain ⟨what, hend⟩ | hsame := h c more
  · rw [hend]
    exact .inl ⟨what, rfl⟩
  · rw [hsame]
    cases hread : read c with
    | error e => exact .inr rfl
    | ok r => exact hf r.1 r.2 more

theorem Steady.times {read : Reading ρ α} (h : Steady read) (n : Nat) : Steady (Outline.times read n) := by
  induction n with
  | zero => exact steady_pure []
  | succ n ih => exact h.bind fun a => ih.bind fun as => steady_pure (a :: as)

/-! ### Parts of a node -/

theorem steady_count : Steady (ρ := ρ) count := by
  refine (steady_next "count").bind fun item => ?_
  split
  next n _ => exact steady_pure n
  next => exact steady_unexpected "count"

theorem steady_string (what : String) : Steady (ρ := ρ) (string what) := by
  refine (steady_next what).bind fun item => ?_
  split
  next s _ => exact steady_pure s
  next => exact steady_unexpected what

theorem steady_property : Steady (ρ := ρ) property := by
  refine (steady_string "property name").bind fun name => (steady_next "marker").bind fun marker =>
    (steady_next "property value").bind fun value => ?_
  split
  · exact steady_pure _
  · exact (steady_lift _).bind fun o => steady_pure _
  · exact (steady_lift _).bind fun os => steady_pure _
  · exact steady_unexpected _

theorem steady_style : Steady (ρ := ρ) style := by
  refine (steady_string "style name").bind fun name => (steady_next "style marker").bind fun marker => ?_
  split
  · exact (steady_next "style value").bind fun value => steady_pure _
  · exact steady_unexpected _

theorem steady_listener : Steady (ρ := ρ) listener := by
  refine (steady_string "event name").bind fun event => (steady_next "handler").bind fun handler => ?_
  split
  · exact steady_pure _
  · exact steady_unexpected _

theorem steady_body (target : Option ρ) : Steady (body target) :=
  steady_count.bind fun l => (steady_property.times l).bind fun _ =>
    steady_count.bind fun m => (steady_style.times m).bind fun _ =>
      steady_count.bind fun n => (steady_listener.times n).bind fun _ => steady_pure _

theorem steady_node : Steady (ρ := ρ) node := by
  refine (steady_next "class reference").bind fun item => ?_
  split
  next ref _ =>
    refine (steady_body (some ref)).bind fun o => (steady_next "content").bind fun content => ?_
    split
    · exact steady_pure o
    · exact (steady_lift _).bind fun children => steady_pure _
    · exact steady_unexpected _
  next => exact steady_unexpected _

/-! ### Whole arrays -/

/-- Of an array that is read to its end no shorter front can be read. -/
theorem Reads.cut {read : Reading ρ α} {front rest : List (Token ρ)} {a : α} (hsteady : Steady read)
    (h : Reads read (front ++ rest) a) (hne : rest ≠ []) :
    ∃ what, Outline.whole read (itemsOf front) = .error (.unexpectedEnd what) := by
  have hall := h 0 []
  rw [List.append_nil, itemsOf_append] at hall
  obtain ⟨what, hend⟩ | hsame := hsteady ⟨0, itemsOf front⟩ (itemsOf rest)
  · exact ⟨what, by rw [Outline.whole, hend]⟩
  · -- Were the front read, the rest of the array would be left over when all of it is read.
    rw [Cursor.before, hall] at hsame
    obtain ⟨⟨b, c⟩, -, hr⟩ := map_eq_ok.mp hsame.symm
    have hleft : c.rest ++ itemsOf rest = [] := congrArg (fun r => r.2.rest) hr
    have hnil : itemsOf rest = [] := (List.append_eq_nil_iff.mp hleft).2
    rw [itemsOf_eq, List.map_eq_nil_iff] at hnil
    exact absurd hnil hne

/-- What follows an array that is read to its end is counted. -/
theorem Reads.overlong {read : Reading ρ α} {ts more : List (Token ρ)} {a : α} (h : Reads read ts a)
    (hne : more ≠ []) : Outline.whole read (itemsOf (ts ++ more)) = .error (.trailing more.length) := by
  have hleft : (itemsOf more).isEmpty = false := by
    rw [itemsOf_eq, List.isEmpty_map]
    exact List.isEmpty_eq_false_iff.mpr hne
  rw [Outline.whole, itemsOf_append, h 0 (itemsOf more)]
  simp only [hleft, Bool.false_eq_true, if_false, length_itemsOf]

/-- The array can be read neither when something is missing at its end nor when something
follows it, and the failure says which. -/
structure Delimited (read : List (Token ρ) → Except DecodeError (Outline ρ)) (tokens : List (Token ρ)) :
    Prop where
  cut : ∀ front, front <+: tokens → front ≠ tokens → ∃ what, read front = .error (.unexpectedEnd what)
  overlong : ∀ more, more ≠ [] → read (tokens ++ more) = .error (.trailing more.length)

theorem Reads.delimited {read : Reading ρ (Outline ρ)} {tokens : List (Token ρ)} {o : Outline ρ}
    (hsteady : Steady read) (h : Reads read tokens o) :
    Delimited (fun ts => Outline.whole read (itemsOf ts)) tokens where
  cut := by
    intro front hfront hne
    obtain ⟨rest, rfl⟩ := hfront
    refine h.cut hsteady fun hnil => hne ?_
    rw [hnil, List.append_nil]
  overlong := fun more hne => h.overlong hne

/-- Lifting the content of the root takes no part in failures. -/
theorem Delimited.map {read : List (Token ρ) → Except DecodeError (Outline ρ)} {tokens : List (Token ρ)}
    (h : Delimited read tokens) (f : Outline ρ → Outline ρ) :
    Delimited (fun ts => (read ts).map f) tokens where
  cut := by
    intro front hfront hne
    obtain ⟨what, hend⟩ := h.cut front hfront hne
    exact ⟨what, map_eq_error.mpr hend⟩
  overlong := fun more hne => map_eq_error.mpr (h.overlong more hne)

end Outline

/-- **A nested node's array and a root's are told from everything shorter and everything longer:
each strict front of one runs out of items while it is read, and of each array that goes on behind
one it is told how many items are left over.** -/
theorem cut_or_overlong_detected (nameOf : Name → ρ) (i : Instruction) :
    Outline.Delimited Outline.ofTokens (i.encode nameOf) ∧
      Outline.Delimited Outline.ofRootTokens (i.encodeRoot nameOf) := by
  have hroot := Outline.reads_encodedBody none i.identity (i.properties ++ i.rootContent) i.styles
    i.listeners fun c _ => Outline.reads_encode nameOf c
  exact ⟨(Outline.reads_encode nameOf i).delimited Outline.steady_node,
    (hroot.delimited (Outline.steady_body none)).map Outline.liftContent⟩

/-- The array of a box is missed without its last token, the content, and two tokens behind it are counted. -/
theorem exposedBox_delimited :
    (∃ what, Outline.ofTokens (exposedBox.encode Name.text).dropLast = .error (.unexpectedEnd what)) ∧
      Outline.ofRootTokens (exposedBox.encodeRoot Name.text ++ [.null, .null]) = .error (.trailing 2) := by
  obtain ⟨hnode, hroot⟩ := cut_or_overlong_detected Name.text exposedBox
  refine ⟨hnode.cut _ (List.dropLast_prefix _) fun h => ?_, hroot.overlong _ (List.cons_ne_nil _ _)⟩
  exact absurd (congrArg List.length h) (by decide)

end Lowering
