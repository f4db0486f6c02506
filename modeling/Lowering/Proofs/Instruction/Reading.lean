import Lowering.Instruction.Outline

/-! What readings take from an array.

A reading takes some tokens off the front of an array and leaves what comes after them,
whatever that is. `Reads` says so of the tokens and of what is read from them. Readings
one after the other take their tokens one after the other (`Reads.bind`, `Reads.times`),
so that the law of every part of a node follows the way in which its reading is put
together. A reading that takes a whole array succeeds on it (`Reads.whole`). -/
namespace Lowering.Outline

variable {ρ α β : Type}

/-- At the front of any array the reading takes these tokens and gives `a`. -/
def Reads (read : Reading ρ α) (tokens : List (Token ρ)) (a : α) : Prop :=
  ∀ position rest, read ⟨position, itemsOf tokens ++ rest⟩ = .ok (a, ⟨position + tokens.length, rest⟩)

/-! ### Items -/

theorem itemsOf_append (ts us : List (Token ρ)) : itemsOf (ts ++ us) = itemsOf ts ++ itemsOf us := by
  rw [itemsOf_eq, itemsOf_eq, itemsOf_eq, List.map_append]

theorem length_itemsOf (ts : List (Token ρ)) : (itemsOf ts).length = ts.length := by
  rw [itemsOf_eq, List.length_map]

/-- An item keeps its token. -/
@[simp] theorem itemOf_token (t : Token ρ) : (itemOf t).token = t := by
  cases t <;> rfl

/-! ### Readings one after the other -/

theorem reads_pure (a : α) : Reads (ρ := ρ) (pure a) [] a := fun _ _ => rfl

theorem Reads.bind {read : Reading ρ α} {f : α → Reading ρ β} {ts us : List (Token ρ)} {a : α} {b : β}
    (h : Reads read ts a) (hf : Reads (f a) us b) : Reads (read >>= f) (ts ++ us) b := by
  intro position rest
  rw [itemsOf_append, List.append_assoc]
  show (read ⟨position, itemsOf ts ++ (itemsOf us ++ rest)⟩ >>= fun r => f r.1 r.2) = _
  rw [h position (itemsOf us ++ rest)]
  show f a ⟨position + ts.length, itemsOf us ++ rest⟩ = _
  rw [hf, List.length_append, Nat.add_assoc]

theorem reads_next (what : String) (t : Token ρ) : Reads (next what) [t] (itemOf t) :=
  fun _ _ => rfl

/-- Taking one item before another reading. -/
theorem Reads.next {what : String} {t : Token ρ} {f : Item ρ → Reading ρ β} {us : List (Token ρ)} {b : β}
    (h : Reads (f (itemOf t)) us b) : Reads (next what >>= f) (t :: us) b :=
  (reads_next what t).bind h

/-- Reading one thing and then more of the same kind. -/
theorem Reads.times_cons {read : Reading ρ α} {n : Nat} {ts us : List (Token ρ)} {a : α} {as : List α}
    (h : Reads read ts a) (h' : Reads (times read n) us as) :
    Reads (Outline.times read (n + 1)) (ts ++ us) (a :: as) := by
  have hread := h.bind (f := fun a => Outline.times read n >>= fun as => pure (a :: as))
    (h'.bind (f := fun as => pure (a :: as)) (reads_pure (a :: as)))
  rwa [List.append_nil] at hread

/-- Reading the same kind of thing once for each of several. -/
theorem Reads.times {read : Reading ρ β} {as : List α} {tokens : α → List (Token ρ)} {value : α → β}
    (h : ∀ a ∈ as, Reads read (tokens a) (value a)) :
    Reads (times read as.length) (as.flatMap tokens) (as.map value) := by
  induction as with
  | nil => exact reads_pure []
  | cons a rest ih =>
    obtain ⟨ha, hrest⟩ := List.forall_mem_cons.mp h
    exact ha.times_cons (ih hrest)

theorem times_add (read : Reading ρ α) (m n : Nat) :
    times read (m + n) = (times read m >>= fun as => times read n >>= fun bs => pure (as ++ bs)) := by
  induction m with
  | zero =>
    rw [Nat.zero_add]
    show _ = (times read n >>= fun bs => pure ([] ++ bs))
    simp
  | succ m ih =>
    rw [Nat.succ_add]
    show (read >>= fun a => times read (m + n) >>= fun as => pure (a :: as)) = _
    rw [ih]
    simp [times]

/-- Reading some and then some more of the same kind. -/
theorem Reads.times_append {read : Reading ρ α} {m n : Nat} {ts us : List (Token ρ)} {as bs : List α}
    (h : Reads (Outline.times read m) ts as) (h' : Reads (Outline.times read n) us bs) :
    Reads (Outline.times read (m + n)) (ts ++ us) (as ++ bs) := by
  rw [times_add]
  have hread := h.bind (f := fun as => Outline.times read n >>= fun bs => pure (as ++ bs))
    (h'.bind (f := fun bs => pure (as ++ bs)) (reads_pure (as ++ bs)))
  rwa [List.append_nil] at hread

/-! ### Whole arrays -/

theorem Reads.whole {read : Reading ρ α} {ts : List (Token ρ)} {a : α} (h : Reads read ts a) :
    Outline.whole read (itemsOf ts) = .ok a := by
  have hall := h 0 []
  rw [List.append_nil] at hall
  rw [Outline.whole, hall]
  rfl

/-- An array of nodes one after the other, each of which takes an item at least, is read as
the sequence of them. -/
theorem nodes_eq {as : List α} {tokens : α → List (Token ρ)} {value : α → Outline ρ}
    (h : ∀ a ∈ as, Reads node (tokens a) (value a)) (hne : ∀ a ∈ as, tokens a ≠ []) {rounds : Nat}
    (hrounds : (as.flatMap tokens).length ≤ rounds) (position : Nat) :
    nodes rounds ⟨position, itemsOf (as.flatMap tokens)⟩ =
      .ok (as.map value, ⟨position + (as.flatMap tokens).length, []⟩) := by
  induction as generalizing rounds position with
  | nil => cases rounds <;> rfl
  | cons a rest ih =>
    obtain ⟨ha, hrest⟩ := List.forall_mem_cons.mp h
    obtain ⟨hne, hnes⟩ := List.forall_mem_cons.mp hne
    obtain ⟨t, ts, htokens⟩ := List.exists_cons_of_ne_nil hne
    rw [List.flatMap_cons, List.length_append, htokens, List.length_cons] at hrounds
    cases rounds with
    | zero => omega
    | succ rounds =>
      have hmore : (itemsOf ((a :: rest).flatMap tokens)).isEmpty = false := by
        rw [List.flatMap_cons, itemsOf_append, htokens]
        rfl
      have hlater := ih hrest hnes (by omega : (rest.flatMap tokens).length ≤ rounds)
        (position + (tokens a).length)
      show ((if (itemsOf ((a :: rest).flatMap tokens)).isEmpty then pure []
        else node >>= fun o => nodes rounds >>= fun os => pure (o :: os) : Reading ρ (List (Outline ρ)))
          ⟨position, itemsOf ((a :: rest).flatMap tokens)⟩) = _
      rw [hmore, if_neg Bool.false_ne_true, List.flatMap_cons, itemsOf_append]
      show (node ⟨position, itemsOf (tokens a) ++ itemsOf (rest.flatMap tokens)⟩ >>= fun r =>
        (nodes rounds >>= fun os => pure (r.1 :: os) : Reading ρ (List (Outline ρ))) r.2) = _
      rw [ha]
      show (nodes rounds ⟨position + (tokens a).length, itemsOf (rest.flatMap tokens)⟩ >>= fun r =>
        (pure (value a :: r.1) : Reading ρ (List (Outline ρ))) r.2) = _
      rw [hlater, List.length_append, ← Nat.add_assoc]
      rfl

/-- The array of nodes one after the other is read as a sequence. -/
theorem whole_nodes {as : List α} {tokens : α → List (Token ρ)} {value : α → Outline ρ}
    (h : ∀ a ∈ as, Reads node (tokens a) (value a)) (hne : ∀ a ∈ as, tokens a ≠ []) :
    Outline.whole (nodes (itemsOf (as.flatMap tokens)).length) (itemsOf (as.flatMap tokens)) =
      .ok (as.map value) := by
  rw [Outline.whole, length_itemsOf, nodes_eq h hne (Nat.le_refl _)]
  rfl

/-! ### Parts of a node -/

theorem reads_count (n : Nat) : Reads (ρ := ρ) count [.count n] n :=
  Reads.next (reads_pure n)

theorem reads_string (what s : String) : Reads (ρ := ρ) (string what) [.text s] s :=
  Reads.next (reads_pure s)

/-- A result that is at hand takes nothing. -/
theorem reads_lift {x : Except DecodeError α} {a : α} (h : x = .ok a) :
    Reads (ρ := ρ) (liftM x) [] a := by
  subst h
  exact fun _ _ => rfl

/-- A property with a simple value, whatever token that is. -/
theorem reads_property_simple (name : String) (t : Token ρ) :
    Reads property [.text name, .mark true, t] (name, .simple t) := by
  refine (reads_string "property name" name).bind (Reads.next (Reads.next ?_))
  simp only [itemOf, itemOf_token]
  exact reads_pure _

theorem reads_property_node (name : String) {ts : List (Token ρ)} {o : Outline ρ} (h : Reads node ts o) :
    Reads property [.text name, .mark false, .array ts] (name, .node o) := by
  refine (reads_string "property name" name).bind (Reads.next (Reads.next ?_))
  simp only [itemOf]
  exact (reads_lift h.whole).bind (reads_pure _)

/-- A property with a sequence of nodes. -/
theorem reads_property_nodes (name : String) {as : List α} {tokens : α → List (Token ρ)}
    {value : α → Outline ρ} (h : ∀ a ∈ as, Reads node (tokens a) (value a)) (hne : ∀ a ∈ as, tokens a ≠ []) :
    Reads property [.text name, .null, .array (as.flatMap tokens)] (name, .nodes (as.map value)) := by
  refine (reads_string "property name" name).bind (Reads.next (Reads.next ?_))
  simp only [itemOf]
  exact (reads_lift (whole_nodes h hne)).bind (reads_pure _)

theorem reads_style (name : String) (t : Token ρ) :
    Reads style [.text name, .mark true, t] (name, t) := by
  refine (reads_string "style name" name).bind (Reads.next (Reads.next ?_))
  rw [itemOf_token]
  exact reads_pure _

theorem reads_listener (event handler : String) :
    Reads (ρ := ρ) listener [.text event, .handler handler] (event, handler) :=
  (reads_string "event name" event).bind (Reads.next (reads_pure _))

/-! ### Nodes -/

/-- The parts that the root and nested nodes have in common, each group with its count. -/
theorem reads_body (target : Option ρ) {properties : List (String × OutlineValue ρ)}
    {styles : List (String × Token ρ)} {listeners : List (String × String)} {l m n : Nat}
    {ps ss ls : List (Token ρ)} (hproperties : Reads (Outline.times property l) ps properties)
    (hstyles : Reads (Outline.times style m) ss styles)
    (hlisteners : Reads (Outline.times listener n) ls listeners) :
    Reads (body target) (.count l :: (ps ++ .count m :: (ss ++ .count n :: ls)))
      { target, identity := (splitIdentity properties).1, properties := (splitIdentity properties).2,
        styles, listeners, content := [] } := by
  have hend := hlisteners.bind (f := fun listeners => pure (Outline.mk target
    (splitIdentity properties).1 (splitIdentity properties).2 styles listeners [])) (reads_pure _)
  rw [List.append_nil] at hend
  exact (reads_count l).bind (hproperties.bind ((reads_count m).bind (hstyles.bind
    ((reads_count n).bind hend))))

/-- A nested node: its type, its body and its content. -/
theorem reads_node (ref : ρ) {o : Outline ρ} {ts : List (Token ρ)} (hbody : Reads (body (some ref)) ts o)
    (hempty : o.content = []) {as : List α} {tokens : α → List (Token ρ)} {value : α → Outline ρ}
    (h : ∀ a ∈ as, Reads node (tokens a) (value a)) (hne : ∀ a ∈ as, tokens a ≠ []) :
    Reads node (.type ref :: (ts ++ [contentToken (as.flatMap tokens)]))
      { o with content := as.map value } := by
  refine Reads.next ?_
  simp only [itemOf]
  refine hbody.bind (Reads.next ?_)
  cases as with
  | nil =>
    obtain ⟨target, identity, properties, styles, listeners, content⟩ := o
    obtain rfl : content = [] := hempty
    exact reads_pure _
  | cons a rest =>
    obtain ⟨t, us, htokens⟩ := List.exists_cons_of_ne_nil (hne a List.mem_cons_self)
    have hsome : contentToken ((a :: rest).flatMap tokens) = .array ((a :: rest).flatMap tokens) := by
      rw [contentToken, List.flatMap_cons, htokens]
      rfl
    rw [hsome]
    simp only [itemOf]
    exact (reads_lift (whole_nodes h hne)).bind (reads_pure _)

end Lowering.Outline
