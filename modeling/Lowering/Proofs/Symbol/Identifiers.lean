import Lowering.Proofs.Symbol.Lookup
import Mathlib.Data.List.Perm.Subperm
import Mathlib.Data.List.Nodup

/-! When two names share an identifier.

A dotted identifier is the name itself. A flattened one is the flattened name, with a
number after it for all but the first of the names that flatten to the same text. Inside
one such group the numbers tell the names apart, and two numbered identifiers of
different groups differ as well. What is left is a numbered identifier of one group that
is the plain one of another: `identifiers_distinct_iff` says that nothing else makes two
names share an identifier, and `plain_meets_numbered` that this happens. -/
namespace Lowering

/-! ### Numbered texts -/

/-- A text and a number after it, as an identifier writes them. -/
def numbered (stem : String) (k : Nat) : String := stem ++ "$" ++ k.repr

theorem dollar_notMem_digits (k : Nat) : '$' ∉ Nat.toDigits 10 k := by
  intro h
  have hdigit := Nat.isDigit_of_mem_toDigits (b := 10) (by decide) (by decide) h
  exact absurd hdigit (by decide)

/-- The last occurrence of a separator tells where a list was joined. -/
theorem append_separator_inj {α : Type} {s : α} {xs ys ds es : List α} (hd : s ∉ ds) (he : s ∉ es)
    (h : xs ++ s :: ds = ys ++ s :: es) : xs = ys ∧ ds = es := by
  rcases List.append_eq_append_iff.mp h with ⟨cs, rfl, hcs⟩ | ⟨cs, rfl, hcs⟩
  · cases cs with
    | nil => exact ⟨(List.append_nil xs).symm, List.cons.inj hcs |>.2⟩
    | cons c cs =>
      have htail := (List.cons.inj hcs).2
      exact absurd (htail ▸ List.mem_append_right cs List.mem_cons_self) hd
  · cases cs with
    | nil => exact ⟨List.append_nil ys, (List.cons.inj hcs).2.symm⟩
    | cons c cs =>
      have htail := (List.cons.inj hcs).2
      exact absurd (htail ▸ List.mem_append_right cs List.mem_cons_self) he

theorem numbered_inj {a b : String} {i j : Nat} (h : numbered a i = numbered b j) :
    a = b ∧ i = j := by
  have hchars := congrArg String.toList h
  simp only [numbered, String.toList_append, Nat.toList_repr, List.append_assoc] at hchars
  obtain ⟨hstem, hdigits⟩ :=
    append_separator_inj (dollar_notMem_digits i) (dollar_notMem_digits j) hchars
  refine ⟨String.toList_inj.mp hstem, ?_⟩
  have hvalue := congrArg (fun ds => Nat.ofDigitChars 10 ds 0) hdigits
  simpa using hvalue

/-! ### Numbers inside a group -/

/-- A count grows when a member is counted that was not. -/
theorem countP_lt_of_mem {α : Type} {p q : α → Bool} {l : List α} (h : ∀ x ∈ l, p x → q x) {a : α}
    (ha : a ∈ l) (hp : p a = false) (hq : q a = true) : l.countP p < l.countP q := by
  obtain ⟨before, after, rfl⟩ := List.append_of_mem ha
  have hbefore := List.countP_mono_left (p := p) (q := q) (l := before) fun x hx =>
    h x (List.mem_append_left _ hx)
  have hafter := List.countP_mono_left (p := p) (q := q) (l := after) fun x hx =>
    h x (List.mem_append_right _ (List.mem_cons_of_mem a hx))
  simp only [List.countP_append, List.countP_cons, hp, hq, if_true, Bool.false_eq_true, if_false]
  omega

/-- How many of the names flatten to a text. -/
def flatCount (names : List Name) (flat : String) : Nat := names.countP (·.flat = flat)

namespace Registry

variable {r : Registry} {d e : Declaration}

theorem rank_lt_rank (hd : d ∈ r.declarations) (hflat : d.name.flat = e.name.flat)
    (hlt : d.name < e.name) : r.rank d < r.rank e := by
  refine countP_lt_of_mem (fun x _ hx => ?_) hd ?_ ?_
  · simp only [Bool.and_eq_true, decide_eq_true_eq] at hx ⊢
    exact ⟨hx.1.trans hflat, Name.lt_trans hx.2 hlt⟩
  · simp [Name.lt_irrefl]
  · simp [hflat, hlt]

/-- Inside a group the number tells the name. -/
theorem rank_inj (hd : d ∈ r.declarations) (he : e ∈ r.declarations)
    (hflat : d.name.flat = e.name.flat) (h : r.rank d = r.rank e) : d.name = e.name := by
  rcases Name.lt_or_eq_or_gt d.name e.name with hlt | heq | hgt
  · have := rank_lt_rank hd hflat hlt
    omega
  · exact heq
  · have := rank_lt_rank he hflat.symm hgt
    omega

theorem rank_lt_flatCount (hd : d ∈ r.declarations) :
    r.rank d < flatCount (r.declarations.map (·.name)) d.name.flat := by
  rw [flatCount, List.countP_map]
  refine countP_lt_of_mem (fun x _ hx => ?_) hd ?_ ?_
  · simp only [Bool.and_eq_true] at hx
    exact hx.1
  · simp [Name.lt_irrefl]
  · simp

/-- The numbers of a group leave no gap. -/
theorem exists_rank {flat : String} {k : Nat}
    (hk : k < flatCount (r.declarations.map (·.name)) flat) :
    ∃ d ∈ r.declarations, d.name.flat = flat ∧ r.rank d = k := by
  let group := r.declarations.filter (·.name.flat = flat)
  have hmem {d : Declaration} : d ∈ group ↔ d ∈ r.declarations ∧ d.name.flat = flat := by
    simp [group]
  have hlength : group.length = flatCount (r.declarations.map (·.name)) flat := by
    rw [flatCount, List.countP_map, List.countP_eq_length_filter]
    rfl
  have hnodup : (group.map r.rank).Nodup := by
    refine List.Nodup.map_on (fun d hd e he h => ?_) ((List.Nodup.of_map _ r.distinct).filter _)
    obtain ⟨hd, hdf⟩ := hmem.mp hd
    obtain ⟨he, hef⟩ := hmem.mp he
    exact eq_of_name_eq hd he (rank_inj hd he (hdf.trans hef.symm) h)
  have hsubset : group.map r.rank ⊆ List.range group.length := by
    intro i hi
    obtain ⟨d, hd, rfl⟩ := List.mem_map.mp hi
    obtain ⟨hdecl, hflat⟩ := hmem.mp hd
    rw [List.mem_range, hlength, ← hflat]
    exact rank_lt_flatCount hdecl
  -- as many different numbers as there are numbers below the size of the group
  have hperm := (hnodup.subperm hsubset).perm_of_length_le (by simp)
  have hin : k ∈ group.map r.rank := hperm.mem_iff.mpr (by simpa [hlength] using hk)
  obtain ⟨d, hd, hrank⟩ := List.mem_map.mp hin
  obtain ⟨hd, hflat⟩ := hmem.mp hd
  exact ⟨d, hd, hflat, hrank⟩

end Registry

/-! ### Shared identifiers -/

/-- Some name flattens to the numbered identifier of another group. -/
def SuffixClash (names : List Name) : Prop :=
  ∃ a ∈ names, ∃ k < flatCount names a.flat, 0 < k ∧ ∃ b ∈ names, b.flat = numbered a.flat k

instance (names : List Name) : Decidable (SuffixClash names) :=
  inferInstanceAs (Decidable
    (∃ a ∈ names, ∃ k < flatCount names a.flat, 0 < k ∧ ∃ b ∈ names, b.flat = numbered a.flat k))

namespace Registry

variable {r : Registry} {d e : Declaration}

theorem outputName_of_rank_zero (h : r.rank d = 0) :
    r.outputName .flattened d = d.name.flat := if_pos h

theorem outputName_of_rank_ne_zero (h : r.rank d ≠ 0) :
    r.outputName .flattened d = numbered d.name.flat (r.rank d) := if_neg h

theorem outputName_dotted_inj (hd : d ∈ r.declarations) (he : e ∈ r.declarations)
    (h : r.outputName .dotted d = r.outputName .dotted e) : d = e :=
  eq_of_name_eq hd he (congrArg Name.mk h)

/-- A name that flattens to the numbered identifier of another one clashes with it. -/
theorem suffixClash_of_flat_eq (hd : d ∈ r.declarations) (he : e ∈ r.declarations)
    (hrank : r.rank e ≠ 0) (h : d.name.flat = numbered e.name.flat (r.rank e)) :
    SuffixClash (r.declarations.map (·.name)) :=
  ⟨e.name, List.mem_map_of_mem he, r.rank e, rank_lt_flatCount he, Nat.pos_of_ne_zero hrank,
    d.name, List.mem_map_of_mem hd, h⟩

/-- Two declarations share a flattened identifier only when a plain form meets a numbered
one: two plain forms of one text, or two numbered ones, are of the same declaration. -/
theorem eq_or_suffixClash (hd : d ∈ r.declarations) (he : e ∈ r.declarations)
    (h : r.outputName .flattened d = r.outputName .flattened e) :
    d = e ∨ SuffixClash (r.declarations.map (·.name)) := by
  by_cases hd0 : r.rank d = 0 <;> by_cases he0 : r.rank e = 0
  · rw [outputName_of_rank_zero hd0, outputName_of_rank_zero he0] at h
    exact .inl (eq_of_name_eq hd he (rank_inj hd he h (hd0.trans he0.symm)))
  · rw [outputName_of_rank_zero hd0, outputName_of_rank_ne_zero he0] at h
    exact .inr (suffixClash_of_flat_eq hd he he0 h)
  · rw [outputName_of_rank_ne_zero hd0, outputName_of_rank_zero he0] at h
    exact .inr (suffixClash_of_flat_eq he hd hd0 h.symm)
  · rw [outputName_of_rank_ne_zero hd0, outputName_of_rank_ne_zero he0] at h
    obtain ⟨hflat, hrank⟩ := numbered_inj h
    exact .inl (eq_of_name_eq hd he (rank_inj hd he hflat hrank))

/-- A clash makes two declarations share an identifier: the number and the plain form both
have one, since groups are numbered without a gap. -/
theorem exists_shared_of_suffixClash (h : SuffixClash (r.declarations.map (·.name))) :
    ∃ d ∈ r.declarations, ∃ e ∈ r.declarations,
      d ≠ e ∧ r.outputName .flattened d = r.outputName .flattened e := by
  obtain ⟨a, -, k, hk, hpos, b, hb, hflat⟩ := h
  obtain ⟨d, hd, hdflat, rfl⟩ := exists_rank hk
  have hcount : 0 < flatCount (r.declarations.map (·.name)) b.flat :=
    List.countP_pos_iff.mpr ⟨b, hb, by simp⟩
  obtain ⟨e, he, heflat, he0⟩ := exists_rank hcount
  refine ⟨d, hd, e, he, ?_, ?_⟩
  · intro heq
    subst heq
    omega
  · rw [outputName_of_rank_ne_zero (by omega), outputName_of_rank_zero he0, heflat, hflat, hdflat]

end Registry

/-- **Whatever is registered, the identifiers of a frozen table are distinct exactly when
names are dotted or no name flattens to a numbered identifier of other names.** -/
theorem identifiers_distinct_iff (ds : List Declaration) (style : NameStyle) (t : SymbolTable)
    (h : (Registry.empty.registerAll ds).1.freeze style = .ok t) :
    (∀ a b, t.contains a → t.contains b → t.outputName? a = t.outputName? b → a = b) ↔
      style = .dotted ∨ ¬SuffixClash (t.symbols.map (·.name)) := by
  rw [Registry.names_of_freeze h]
  constructor
  · intro hinj
    cases style with
    | dotted => exact .inl rfl
    | flattened =>
      refine .inr fun hclash => ?_
      obtain ⟨d, hd, e, he, hne, hsame⟩ := Registry.exists_shared_of_suffixClash hclash
      have hdt := Registry.outputName?_of_freeze h hd
      have het := Registry.outputName?_of_freeze h he
      exact hne (Registry.eq_of_name_eq hd he (hinj d.name e.name (Registry.contains_of_freeze h hd)
        (Registry.contains_of_freeze h he) (by rw [hdt, het, hsame])))
  · intro hstyle a b ha hb hsame
    obtain ⟨d, hd, rfl⟩ := Registry.exists_of_contains h ha
    obtain ⟨e, he, rfl⟩ := Registry.exists_of_contains h hb
    rw [Registry.outputName?_of_freeze h hd, Registry.outputName?_of_freeze h he,
      Option.some.injEq] at hsame
    cases style with
    | dotted => rw [Registry.outputName_dotted_inj hd he hsame]
    | flattened =>
      have hfree := hstyle.resolve_left (by decide)
      rw [(Registry.eq_or_suffixClash hd he hsame).resolve_right hfree]

/-- Three names that flatten to one text, and the identifiers that tell them apart. -/
theorem colliding_names_distinct :
    ∃ t, (Registry.empty.registerAll
        [{ name := ⟨"a_b.C"⟩ }, { name := ⟨"a.b_C"⟩ }, { name := ⟨"a.b.C"⟩ }]).1.freeze .flattened = .ok t ∧
      t.symbols.map (·.outputName) = ["a_b_C$2", "a_b_C$1", "a_b_C"] ∧
      ∀ a b, t.contains a → t.contains b → t.outputName? a = t.outputName? b → a = b := by
  have h : (Registry.empty.registerAll
      [{ name := ⟨"a_b.C"⟩ }, { name := ⟨"a.b_C"⟩ }, { name := ⟨"a.b.C"⟩ }]).1.freeze .flattened = .ok _ := rfl
  exact ⟨_, h, by decide +kernel,
    (identifiers_distinct_iff _ .flattened _ h).mpr (.inr (by decide +kernel))⟩

/-- The plain identifier of one name is the numbered one of another. -/
theorem plain_meets_numbered :
    ∃ t, (Registry.empty.registerAll
        [{ name := ⟨"ui.Icon"⟩ }, { name := ⟨"ui_Icon"⟩ }, { name := ⟨"ui_Icon$1"⟩ }]).1.freeze .flattened
          = .ok t ∧
      t.outputName? ⟨"ui_Icon"⟩ = some "ui_Icon$1" ∧ t.outputName? ⟨"ui_Icon$1"⟩ = some "ui_Icon$1" ∧
      ¬∀ a b, t.contains a → t.contains b → t.outputName? a = t.outputName? b → a = b := by
  refine ⟨_, rfl, by decide +kernel, by decide +kernel, fun hinj => ?_⟩
  have hsame := hinj ⟨"ui_Icon"⟩ ⟨"ui_Icon$1"⟩ (by decide +kernel) (by decide +kernel) (by decide +kernel)
  exact absurd hsame (by decide)

end Lowering
