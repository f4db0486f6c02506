import Lowering.Command.Run
import Lowering.Proofs.Files.Steps
import Lowering.Proofs.Outcome

/-! Writing units.

A directory stays one whatever is written, and a file keeps its text unless it is written itself.
So a path that led to a place leads there still, and when units are written one after the other, at
the end each of them is found at its path if no other one has its destination
(`read?_of_writeUnits`). -/
namespace Lowering

namespace FileTree

variable {t t' t'' : FileTree} {working here place q : Place} {p : Path}

/-- Directories stay directories, and files keep their texts, but for one place. -/
structure Keeps (t t' : FileTree) (except : Option Place) : Prop where
  directory : ∀ q, t.at? q = some .directory → t'.at? q = some .directory
  file : ∀ q text, t.at? q = some (.file text) → some q ≠ except → t'.at? q = some (.file text)

theorem Keeps.refl (t : FileTree) : t.Keeps t none := ⟨fun _ h => h, fun _ _ h _ => h⟩

theorem at?_nil (t : FileTree) : t.at? [] = some .directory := if_pos rfl

/-! ### Making directories -/

/-- What was at a place is still there; where nothing was, there may be a directory. -/
def KeepsAt (t t' : FileTree) (q : Place) : Prop :=
  t'.at? q = t.at? q ∨ t.at? q = none ∧ t'.at? q = some .directory

theorem KeepsAt.refl (t : FileTree) (q : Place) : t.KeepsAt t q := .inl rfl

/-- What is at a place is kept as it is. -/
theorem KeepsAt.entry {e : Entry} (h : t.KeepsAt t' q) (hq : t.at? q = some e) : t'.at? q = some e := by
  obtain h | ⟨hnone, -⟩ := h
  · exact h.trans hq
  · cases hq.symm.trans hnone

theorem KeepsAt.trans (h : t.KeepsAt t' q) (h' : t'.KeepsAt t'' q) : t.KeepsAt t'' q := by
  obtain h | ⟨hnone, hdirectory⟩ := h
  · rw [KeepsAt, ← h]
    exact h'
  · exact .inr ⟨hnone, h'.entry hdirectory⟩

theorem Keeps.of_keepsAt (h : ∀ q, t.KeepsAt t' q) : t.Keeps t' none where
  directory q hq := (h q).entry hq
  file q _ hq _ := (h q).entry hq

theorem withDir?_keepsAt (h : t.withDir? place = some t') (q : Place) : t.KeepsAt t' q := by
  unfold withDir? at h
  split at h
  · obtain rfl := Option.some.inj h
    exact .refl t q
  · cases h
  next hnone =>
    obtain rfl := Option.some.inj h
    have hne : place ≠ [] := fun hnil => by
      rw [hnil, at?_nil] at hnone
      cases hnone
    unfold KeepsAt
    rw [at?_put t .directory hne]
    by_cases hq : q = place
    · rw [if_pos hq, hq]
      exact .inr ⟨hnone, rfl⟩
    · rw [if_neg hq]
      exact .inl rfl

/-- Making directories only puts something where nothing is. -/
theorem withDirs?_keepsAt {components : List String} (h : t.withDirs? here components = some t') (q : Place) :
    t.KeepsAt t' q := by
  induction components generalizing t here with
  | nil => exact withDir?_keepsAt h q
  | cons component rest ih =>
    obtain ⟨t₁, hfirst, hrest⟩ := Option.bind_eq_some_iff.mp h
    exact (withDir?_keepsAt hfirst q).trans (ih hrest)

theorem makeDirs?_keepsAt (h : t.makeDirs? working p = some t') (q : Place) : t.KeepsAt t' q := by
  unfold makeDirs? at h
  split at h
  · obtain rfl := Option.some.inj h
    exact .refl t q
  · split at h
    · exact withDirs?_keepsAt h q
    · cases h

/-! ### Writing a file -/

theorem walk?_keeps {except : Option Place} {components : List String} (hkeeps : t.Keeps t' except)
    (h : t.walk? here components = some place) : t'.walk? here components = some place := by
  induction components generalizing here with
  | nil => exact h
  | cons component rest ih =>
    rw [walk?] at h ⊢
    split at h
    next hdirectory =>
      rw [if_pos (hkeeps.directory here hdirectory)]
      exact ih h
    next => cases h

theorem place?_keeps {except : Option Place} (hkeeps : t.Keeps t' except)
    (h : t.place? working p = some place) : t'.place? working p = some place := by
  rw [place?] at h ⊢
  split at h
  next hsound =>
    rw [if_pos hsound]
    exact walk?_keeps hkeeps h
  next => cases h

/-- A file that is read at its path is read there still. -/
theorem read?_keeps {except : Option Place} {text : String} (hkeeps : t.Keeps t' except)
    (hne : some (p.destination working) ≠ except) (h : t.read? working p = some text) :
    t'.read? working p = some text := by
  rw [read?, entry?] at h ⊢
  cases hplace : t.place? working p with
  | none =>
    rw [hplace] at h
    cases h
  | some place =>
    rw [hplace, Option.bind_some] at h
    rw [place?_keeps hkeeps hplace, Option.bind_some]
    split at h
    next hfile =>
      rw [hkeeps.file place _ hfile (place?_eq hplace ▸ hne)]
      exact h
    next => cases h

/-- A file is put at its destination, where its path leads and no directory is. -/
theorem write?_eq_some {text : String} (h : t.write? working p text = some t') :
    t.place? working p = some (p.destination working) ∧ t.at? (p.destination working) ≠ some .directory ∧
      t' = t.put (p.destination working) (.file text) := by
  unfold write? at h
  split at h
  next place hplace =>
    obtain rfl := place?_eq hplace
    split at h
    · cases h
    next hfree => exact ⟨hplace, hfree, (Option.some.inj h).symm⟩
  next => cases h

/-- Writing a file changes what is at its destination. -/
theorem at?_write? {text : String} (h : t.write? working p text = some t') (q : Place) :
    t'.at? q = if q = p.destination working then some (.file text) else t.at? q := by
  obtain ⟨-, hfree, rfl⟩ := write?_eq_some h
  have hne : p.destination working ≠ [] := fun hnil => by
    rw [hnil] at hfree
    exact hfree (at?_nil t)
  exact at?_put t _ hne q

/-- A written file is read at its path, and nothing else changes. -/
theorem write?_keeps {text : String} (h : t.write? working p text = some t') :
    t.Keeps t' (some (p.destination working)) ∧ t'.read? working p = some text := by
  obtain ⟨hplace, hfree, -⟩ := write?_eq_some h
  have hkeeps : t.Keeps t' (some (p.destination working)) := by
    refine ⟨fun q hq => ?_, fun q text' hq hother => ?_⟩
    · have hne : q ≠ p.destination working := fun heq => hfree (heq ▸ hq)
      rw [at?_write? h, if_neg hne, hq]
    · have hne : q ≠ p.destination working := fun heq => hother (congrArg some heq)
      rw [at?_write? h, if_neg hne, hq]
  refine ⟨hkeeps, ?_⟩
  rw [read?, entry?, place?_keeps hkeeps hplace, Option.bind_some, at?_write? h, if_pos rfl]

theorem orKeep_eq_true {changed : Option FileTree} : t.orKeep changed = (true, t') ↔ changed = some t' := by
  cases changed with
  | none =>
    constructor
    · intro h
      cases h
    · intro h
      cases h
  | some t₁ =>
    constructor
    · exact fun h => congrArg some (Prod.mk.inj h).2
    · exact fun h => congrArg (true, ·) (Option.some.inj h)

end FileTree

/-! ### Units -/

namespace Command

variable {working : Place} {outDir : Path} {t t' : FileTree}

/-- What follows an effect works on the tree that it leaves, unless it failed. -/
theorem run_bind {α β : Type} (x : ExceptT Failure (StateM FileTree) α)
    (f : α → ExceptT Failure (StateM FileTree) β) (t : FileTree) :
    (x >>= f).run.run t =
      match x.run.run t with
      | (.ok a, t₁) => (f a).run.run t₁
      | (.error e, t₁) => (.error e, t₁) := by
  rw [ExceptT.run_bind, StateT.run_bind]
  obtain ⟨result, t₁⟩ := x.run.run t
  cases result <;> rfl

/-- Two effects succeed where the first does and then the second. -/
theorem run_bind_eq_ok {α β : Type} {x : ExceptT Failure (StateM FileTree) α}
    {f : α → ExceptT Failure (StateM FileTree) β} {b : β} :
    (x >>= f).run.run t = (.ok b, t') ↔
      ∃ a t₁, x.run.run t = (.ok a, t₁) ∧ (f a).run.run t₁ = (.ok b, t') := by
  rw [run_bind]
  obtain ⟨result, t₁⟩ := x.run.run t
  cases result with
  | error e =>
    constructor
    · intro h
      cases h
    · rintro ⟨_, _, h, -⟩
      cases h
  | ok a =>
    constructor
    · exact fun h => ⟨a, t₁, rfl, h⟩
    · rintro ⟨_, _, h, hrest⟩
      cases h
      exact hrest

theorem demand_eq_ok {failure : Failure} {effect : StateM FileTree Bool} :
    (demand failure effect).run.run t = (.ok (), t') ↔ effect.run t = (true, t') := by
  have hrun : (demand failure effect).run.run t =
      match effect.run t with
      | (true, t₁) => (.ok (), t₁)
      | (false, t₁) => (.error failure, t₁) := by
    rw [demand, ExceptT.run_bind, StateT.run_bind, ExceptT.run_liftM, StateT.run_map]
    obtain ⟨done, t₁⟩ := effect.run t
    cases done <;> rfl
  rw [hrun]
  obtain ⟨done, t₁⟩ := effect.run t
  cases done with
  | true =>
    constructor
    · intro h
      cases h
      rfl
    · intro h
      cases h
      rfl
  | false =>
    constructor
    · intro h
      cases h
    · intro h
      cases h

/-- Directories are made before a unit is written to its path. -/
theorem writeUnit_eq_ok {u : LoadUnit}
    (h : (writeUnit (FileTree.access working) outDir u).run.run t = (.ok (), t')) :
    ∃ t₁, t.Keeps t₁ none ∧ t₁.write? working (outDir.join u.path) u.text = some t' := by
  have hwrite {t₁ : FileTree} (h : (demand (.unwritableUnit (outDir.join u.path))
      ((FileTree.access working).write (outDir.join u.path) u.text)).run.run t₁ = (.ok (), t')) :
      t₁.write? working (outDir.join u.path) u.text = some t' := by
    rw [demand_eq_ok] at h
    exact FileTree.orKeep_eq_true.mp h
  rw [writeUnit] at h
  cases hparent : (outDir.join u.path).parent? with
  | none =>
    rw [hparent] at h
    exact ⟨t, .refl t, hwrite h⟩
  | some parent =>
    rw [hparent] at h
    obtain ⟨_, t₁, hmade, h⟩ := run_bind_eq_ok.mp h
    rw [demand_eq_ok] at hmade
    exact ⟨t₁, .of_keepsAt (FileTree.makeDirs?_keepsAt (FileTree.orKeep_eq_true.mp hmade)), hwrite h⟩

/-- What is written to other destinations leaves the file at a path. -/
theorem writeUnits_keep {units : List LoadUnit} {p : Path} {text : String}
    (hother : p.destination working ∉ units.map fun u => (outDir.join u.path).destination working)
    (h : (units.forM (writeUnit (FileTree.access working) outDir)).run.run t = (.ok (), t'))
    (hread : t.read? working p = some text) : t'.read? working p = some text := by
  induction units generalizing t with
  | nil =>
    obtain rfl := (Prod.mk.inj h).2
    exact hread
  | cons u rest ih =>
    rw [List.map_cons, List.mem_cons, not_or] at hother
    obtain ⟨_, t₂, hfirst, hrest⟩ := run_bind_eq_ok.mp h
    obtain ⟨t₁, hmade, hwrite⟩ := writeUnit_eq_ok hfirst
    have hmade : t₁.read? working p = some text := FileTree.read?_keeps hmade nofun hread
    obtain ⟨hkept, -⟩ := FileTree.write?_keeps hwrite
    have hne : some (p.destination working) ≠ some ((outDir.join u.path).destination working) :=
      fun heq => hother.1 (Option.some.inj heq)
    exact ih hother.2 hrest (FileTree.read?_keeps hkept hne hmade)

/-- **One after the other, units that are written to different destinations are all found at their
paths in the end.** -/
theorem read?_of_writeUnits {units : List LoadUnit}
    (hapart : (units.map fun u => (outDir.join u.path).destination working).Nodup)
    (h : (units.forM (writeUnit (FileTree.access working) outDir)).run.run t = (.ok (), t')) :
    ∀ u ∈ units, t'.read? working (outDir.join u.path) = some u.text := by
  induction units generalizing t with
  | nil => exact fun _ hu => nomatch hu
  | cons u rest ih =>
    rw [List.map_cons, List.nodup_cons] at hapart
    obtain ⟨_, t₂, hfirst, hrest⟩ := run_bind_eq_ok.mp h
    obtain ⟨t₁, -, hwrite⟩ := writeUnit_eq_ok hfirst
    obtain ⟨-, hread⟩ := FileTree.write?_keeps hwrite
    have hfirst : t'.read? working (outDir.join u.path) = some u.text :=
      writeUnits_keep hapart.1 hrest hread
    exact List.forall_mem_cons.mpr ⟨hfirst, ih hapart.2 hrest⟩

end Command

end Lowering
