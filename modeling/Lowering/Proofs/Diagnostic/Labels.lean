import Lowering.Proofs.Diagnostic.Boundaries
import Lowering.Proofs.Outcome

/-! Labels of diagnostics.

A label is to mark characters of a source text that is known. The label of a place without a span
does wherever the place has one, since it goes from the column up to a blank or to the end of the
line; but there is no label, and no diagnostic, where the column is inside a character. A span is
taken as it is. So diagnostics are there with labels within the texts exactly if no column is inside
a character and every span is a range of its text (`labels_within_iff`). -/
namespace Lowering

/-- The bytes from a boundary of the text up to another one. -/
structure SourceFile.IsRange (f : SourceFile) (start stop : Nat) : Prop where
  start_le : start ≤ stop
  stop_le : stop ≤ f.size
  start : f.IsBoundary start
  stop : f.IsBoundary stop

/-- The label marks a range of its text. -/
def Label.Within (l : Label) (s : Sources) : Prop :=
  ∃ f, s[l.file]? = some f ∧ f.IsRange l.start l.stop

/-- If the text is known, a span is a range of it, and a column without a span is at a boundary or
past the end of its line. -/
def Location.IsSound (l : Location) (s : Sources) : Prop :=
  ∀ id f, s.id? l.file = some id → s[id]? = some f →
    match l.span with
    | some span => f.IsRange span.start.toNat span.stop.toNat
    | none => ∀ line, f.lines[l.line.toNat - 1]? = some line →
        line.stop ≤ line.start + (l.column.toNat - 1) ∨
          f.IsBoundary (line.start + (l.column.toNat - 1))

/-! ### One place -/

namespace SourceFile

variable {f : SourceFile} {line : SourceLine} {column start stop : Nat}

/-- What is marked on a line is a range of the text. -/
theorem isRange_of_word? (hline : line ∈ f.lines) (h : line.word? column = some (start, stop)) :
    f.IsRange start stop := by
  obtain ⟨⟨n, left⟩, hpass, heq⟩ := Option.map_eq_some_iff.mp h
  obtain ⟨rfl, rfl⟩ := Prod.mk.inj heq
  obtain ⟨front, hchars, rfl, -⟩ := of_passBytes hpass
  have hword : line.chars = (front ++ left.takeWhile (!Text.isBlank ·)) ++ left.dropWhile (!Text.isBlank ·) := by
    rw [hchars, List.append_assoc, List.takeWhile_append_dropWhile]
  have hlength := congrArg byteLength hword
  rw [byteLength_append, byteLength_append] at hlength
  have hstart : f.IsBoundary (line.start + byteLength front) :=
    (isBoundary_line_iff hline (by omega)).mpr ⟨front, left, hchars, rfl⟩
  have hstop : f.IsBoundary (line.start + byteLength front + byteLength (left.takeWhile (!Text.isBlank ·))) := by
    rw [Nat.add_assoc, ← byteLength_append]
    exact (isBoundary_line_iff hline (by rw [byteLength_append]; omega)).mpr ⟨_, _, hword, rfl⟩
  exact ⟨Nat.le_add_right .., hstop.le_size, hstart, hstop⟩

/-- A column can be marked unless it is inside a character. -/
theorem exists_word?_iff (hline : line ∈ f.lines) :
    (∃ range, line.word? column = some range) ↔
      line.stop ≤ line.start + (column - 1) ∨ f.IsBoundary (line.start + (column - 1)) := by
  rw [SourceLine.stop, Nat.add_le_add_iff_left]
  by_cases hpast : byteLength line.chars ≤ column - 1
  · refine ⟨fun _ => .inl hpast, fun _ => ?_⟩
    rw [SourceLine.word?, passBytes_of_le hpast]
    exact ⟨_, rfl⟩
  · rw [isBoundary_line_iff hline (by omega)]
    constructor
    · intro h
      obtain ⟨range, hrange⟩ := h
      obtain ⟨⟨n, left⟩, hpass, -⟩ := Option.map_eq_some_iff.mp hrange
      obtain ⟨front, hchars, hbytes, hn⟩ := of_passBytes hpass
      exact .inr ⟨front, left, hchars, by omega⟩
    · intro h
      obtain ⟨front, back, hchars, hbytes⟩ := h.resolve_left hpast
      rw [SourceLine.word?, hchars, ← hbytes, passBytes_of_front]
      exact ⟨_, rfl⟩

end SourceFile

namespace Sources

variable {s : Sources} {l : Location} {style : LabelStyle} {message note : String}

/-- The id of a known file leads to it. -/
theorem exists_of_id? {path : String} {id : Nat} (h : s.id? path = some id) : ∃ f, s[id]? = some f := by
  obtain ⟨⟨f, i⟩, hlast, rfl⟩ := Option.map_eq_some_iff.mp h
  have hmem := (List.mem_filter.mp (List.mem_of_getLast? hlast)).1
  exact ⟨f, List.mem_zipIdx_iff_getElem?.mp hmem⟩

/-- What is marked at a place is a range of the text that it names. -/
def Marks (s : Sources) (found : Option (Nat × Nat × Nat)) : Prop :=
  ∀ id start stop, found = some (id, start, stop) → ∃ f, s[id]? = some f ∧ f.IsRange start stop

theorem marks_none : s.Marks none := nofun

theorem marks_some {id start stop : Nat} {f : SourceFile} (hf : s[id]? = some f) :
    s.Marks (some (id, start, stop)) ↔ f.IsRange start stop := by
  constructor
  · intro h
    obtain ⟨f', hf', hrange⟩ := h id start stop rfl
    rw [hf] at hf'
    exact Option.some.inj hf' ▸ hrange
  · intro h _ _ _ heq
    cases heq
    exact ⟨f, hf, h⟩

/-- A label is made of what is marked at a place. -/
theorem exists_mark_iff :
    (∃ mark, s.mark style message note l = .ok mark ∧ ∀ label ∈ mark.1, label.Within s) ↔
      ∃ found, s.range? l = .ok found ∧ s.Marks found := by
  unfold mark
  cases s.range? l with
  | error e =>
    constructor
    · exact fun h => nomatch h.choose_spec.1
    · exact fun h => nomatch h.choose_spec.1
  | ok found =>
    cases found with
    | none =>
      exact ⟨fun _ => ⟨none, rfl, marks_none⟩, fun _ => ⟨_, rfl, fun _ hlabel => nomatch hlabel⟩⟩
    | some range =>
      constructor
      · intro h
        obtain ⟨mark, hmark, hwithin⟩ := h
        obtain rfl := Except.ok.inj hmark
        refine ⟨_, rfl, fun id start stop heq => ?_⟩
        cases heq
        exact hwithin _ List.mem_cons_self
      · intro h
        obtain ⟨found, hfound, hmarks⟩ := h
        obtain rfl := Except.ok.inj hfound
        refine ⟨_, rfl, fun label hlabel => ?_⟩
        obtain rfl := List.mem_singleton.mp hlabel
        exact hmarks _ _ _ rfl

/-- In a known text a place without a span is sound if a word can be looked for on its line. -/
theorem isSound_iff {id : Nat} {f : SourceFile} (hid : s.id? l.file = some id) (hf : s[id]? = some f) :
    l.IsSound s ↔ match l.span with
      | some span => f.IsRange span.start.toNat span.stop.toNat
      | none => ∀ line, f.lines[l.line.toNat - 1]? = some line →
          ∃ range, line.word? l.column.toNat = some range := by
  have hknown {P : SourceFile → Prop} : (∀ id f, s.id? l.file = some id → s[id]? = some f → P f) ↔ P f := by
    constructor
    · exact fun h => h id f hid hf
    · intro h id' f' hid' hf'
      obtain rfl := Option.some.inj (hid.symm.trans hid')
      exact Option.some.inj (hf.symm.trans hf') ▸ h
  unfold Location.IsSound
  rw [hknown]
  cases l.span with
  | some span => rfl
  | none =>
    exact forall₂_congr fun line hline => (SourceFile.exists_word?_iff (List.mem_of_getElem? hline)).symm

/-- A place in a text can be marked by a range exactly if it is sound. -/
theorem exists_range?_iff : (∃ found, s.range? l = .ok found ∧ s.Marks found) ↔ l.IsSound s := by
  cases hid : s.id? l.file with
  | none =>
    rw [range?, hid]
    exact iff_of_true ⟨none, rfl, marks_none⟩ fun _ _ h => nomatch hid.symm.trans h
  | some id =>
    obtain ⟨f, hf⟩ := exists_of_id? hid
    rw [isSound_iff hid hf, range?, hid]
    dsimp only
    cases l.span with
    | some span =>
      dsimp only
      rw [← marks_some hf]
      constructor
      · intro h
        obtain ⟨found, hfound, hmarks⟩ := h
        obtain rfl := Except.ok.inj hfound
        exact hmarks
      · exact fun h => ⟨_, rfl, h⟩
    | none =>
      dsimp only
      rw [hf, List.head?_drop, Option.map_some, Option.getD_some]
      cases hline : f.lines[l.line.toNat - 1]? with
      | none => exact iff_of_true ⟨none, rfl, marks_none⟩ nofun
      | some line =>
        dsimp only
        cases hword : line.word? l.column.toNat with
        | none =>
          refine iff_of_false (fun h => nomatch h.choose_spec.1) fun h => ?_
          obtain ⟨range, hrange⟩ := h line rfl
          cases hword.symm.trans hrange
        | some range =>
          have hrange : f.IsRange range.1 range.2 :=
            SourceFile.isRange_of_word? (List.mem_of_getElem? hline) hword
          refine iff_of_true ⟨_, rfl, (marks_some hf).mpr hrange⟩ fun line' hline' => ?_
          obtain rfl := Option.some.inj hline'
          exact ⟨range, hword⟩

/-- A place makes a label of a range of its text, or a note, exactly if it is sound. -/
theorem mark_iff : (∃ mark, s.mark style message note l = .ok mark ∧ ∀ label ∈ mark.1, label.Within s) ↔
    l.IsSound s :=
  exists_mark_iff.trans exists_range?_iff

end Sources

/-! ### Diagnostics -/

/-- The labels of a diagnostic are those of its places. -/
theorem Error.exists_diagnostic_iff {e : Error} {s : Sources} {P : Label → Prop} :
    (∃ d, e.diagnostic s = .ok d ∧ ∀ l ∈ d.labels, P l) ↔
      (∃ here, e.location.toList.mapM (s.mark .primary e.labelMessage "at") = .ok here ∧
        ∀ mark ∈ here, ∀ l ∈ mark.1, P l) ∧
      ∃ first, e.firstLocation.toList.mapM
          (s.mark .secondary "first defined here" "first defined at") = .ok first ∧
        ∀ mark ∈ first, ∀ l ∈ mark.1, P l := by
  unfold diagnostic
  constructor
  · intro h
    obtain ⟨d, hd, hlabels⟩ := h
    obtain ⟨here, hhere, hd⟩ := bind_eq_ok.mp hd
    obtain ⟨first, hfirst, hd⟩ := bind_eq_ok.mp hd
    obtain rfl := Except.ok.inj hd
    have hmarks : ∀ mark ∈ here ++ first, ∀ l ∈ mark.1, P l := fun mark hmark l hl =>
      hlabels l (List.mem_flatMap.mpr ⟨mark, hmark, hl⟩)
    obtain ⟨hprimary, hsecondary⟩ := List.forall_mem_append.mp hmarks
    exact ⟨⟨here, hhere, hprimary⟩, first, hfirst, hsecondary⟩
  · intro h
    obtain ⟨⟨here, hhere, hprimary⟩, first, hfirst, hsecondary⟩ := h
    rw [hhere, hfirst]
    refine ⟨_, rfl, fun l hl => ?_⟩
    obtain ⟨mark, hmark, hl⟩ := List.mem_flatMap.mp hl
    exact List.forall_mem_append.mpr ⟨hprimary, hsecondary⟩ mark hmark l hl

/-- **A failure has a diagnostic whose labels all mark ranges of the known texts exactly if each of
its places is sound.** -/
theorem labels_within_iff (e : Error) (s : Sources) :
    (∃ d, e.diagnostic s = .ok d ∧ ∀ l ∈ d.labels, l.Within s) ↔
      ∀ place ∈ e.location.toList ++ e.firstLocation.toList, place.IsSound s := by
  rw [Error.exists_diagnostic_iff, exists_mapM_iff, exists_mapM_iff, List.forall_mem_append]
  simp only [Sources.mark_iff]

/-- A text of one character, which takes two bytes. -/
def accented : Sources := [⟨"Caf.mxml", "é"⟩]

/-- The second column of it is inside of the character, and so there is no diagnostic; and a span of
nine bytes is marked, of which the text has two. -/
theorem accented_mislabelled :
    (∀ d, (Error.emptyModule ⟨"Caf"⟩ (some ⟨"Caf.mxml", 1, 2, none⟩)).diagnostic accented ≠ .ok d) ∧
      ∃ d, (Error.emptyModule ⟨"Caf"⟩ (some ⟨"Caf.mxml", 1, 1, some ⟨0, 9⟩⟩)).diagnostic accented = .ok d ∧
        ∃ l ∈ d.labels, ¬l.Within accented := by
  refine ⟨fun d h => ?_, _, rfl, _, List.mem_cons_self, fun h => ?_⟩
  · cases h
  · obtain ⟨f, hf, hrange⟩ := h
    obtain rfl := Option.some.inj hf
    exact absurd hrange.stop_le (by decide)

end Lowering
