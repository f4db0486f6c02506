import Lowering.Proofs.Files.Writing

/-! Units that are written over each other.

A unit that a tree takes has its text at its destination, and everywhere else there is what there
was, or a directory where nothing was (`writeUnit?_at`). So when units are written one after the
other, a place that some of them lead to has the text of the last of these, and the other places
are kept in the same way (`writeUnits?_at`). -/
namespace Lowering

namespace FileTree

variable {t t' : FileTree} {working place : Place} {outDir p : Path} {u : LoadUnit}

/-! ### Writing what is taken -/

/-- The tree with the directories above a path. -/
def withParent? (t : FileTree) (working : Place) (p : Path) : Option FileTree :=
  match p.parent? with
  | some parent => t.makeDirs? working parent
  | none => some t

/-- The tree with a unit and the directories above it, unless it refuses one of them. -/
def writeUnit? (t : FileTree) (working : Place) (outDir : Path) (u : LoadUnit) : Option FileTree := do
  (← t.withParent? working (outDir.join u.path)).write? working (outDir.join u.path) u.text

/-- The tree with units, one after the other, unless it refuses one of them. -/
def writeUnits? (t : FileTree) (working : Place) (outDir : Path) (units : List LoadUnit) : Option FileTree :=
  units.foldlM (fun t u => t.writeUnit? working outDir u) t

/-- A unit is written after some directories are made. -/
theorem writeUnit?_eq_some (h : t.writeUnit? working outDir u = some t') :
    ∃ made, (∀ q, t.KeepsAt made q) ∧ made.write? working (outDir.join u.path) u.text = some t' := by
  obtain ⟨made, hmade, hwrite⟩ := Option.bind_eq_some_iff.mp h
  refine ⟨made, ?_⟩
  unfold withParent? at hmade
  split at hmade
  · exact ⟨makeDirs?_keepsAt hmade, hwrite⟩
  · obtain rfl := Option.some.inj hmade
    exact ⟨KeepsAt.refl t, hwrite⟩

/-- A unit has its text at its destination, and the other places are kept. -/
theorem writeUnit?_at (h : t.writeUnit? working outDir u = some t') (q : Place) :
    if q = (outDir.join u.path).destination working then t'.at? q = some (.file u.text)
    else t.KeepsAt t' q := by
  obtain ⟨made, hkeepsAt, hwrite⟩ := writeUnit?_eq_some h
  have hat := at?_write? hwrite q
  split
  next hq => rw [hat, if_pos hq]
  next hq =>
    rw [if_neg hq] at hat
    exact (hkeepsAt q).trans (.inl hat)

/-- Where paths lead, they lead still when a unit is written. -/
theorem place?_writeUnit? (h : t.writeUnit? working outDir u = some t') (hp : t.place? working p = some place) :
    t'.place? working p = some place := by
  obtain ⟨made, hkeepsAt, hwrite⟩ := writeUnit?_eq_some h
  exact place?_keeps (write?_keeps hwrite).1 (place?_keeps (.of_keepsAt hkeepsAt) hp)

theorem writeUnits?_cons {rest : List LoadUnit} :
    t.writeUnits? working outDir (u :: rest) = some t' ↔
      ∃ t₁, t.writeUnit? working outDir u = some t₁ ∧ t₁.writeUnits? working outDir rest = some t' := by
  unfold writeUnits?
  rw [List.foldlM_cons]
  exact Option.bind_eq_some_iff

theorem place?_writeUnits? {units : List LoadUnit} (h : t.writeUnits? working outDir units = some t')
    (hp : t.place? working p = some place) : t'.place? working p = some place := by
  induction units generalizing t with
  | nil =>
    obtain rfl := Option.some.inj h
    exact hp
  | cons u rest ih =>
    obtain ⟨t₁, hfirst, hrest⟩ := writeUnits?_cons.mp h
    exact ih hrest (place?_writeUnit? hfirst hp)

/-! ### The last unit at a place -/

/-- The last of the units that are written to a place. -/
def lastAt? (working : Place) (outDir : Path) (units : List LoadUnit) (q : Place) : Option LoadUnit :=
  units.reverse.find? fun u => (outDir.join u.path).destination working = q

theorem lastAt?_cons (rest : List LoadUnit) (q : Place) :
    lastAt? working outDir (u :: rest) q =
      (lastAt? working outDir rest q).or
        (if (outDir.join u.path).destination working = q then some u else none) := by
  unfold lastAt?
  rw [List.reverse_cons, List.find?_append, List.find?_singleton]
  simp only [decide_eq_true_eq]

variable (working outDir) in
theorem lastAt?_isSome {units : List LoadUnit} (hu : u ∈ units) :
    (lastAt? working outDir units ((outDir.join u.path).destination working)).isSome :=
  List.find?_isSome.mpr ⟨u, List.mem_reverse.mpr hu, decide_eq_true rfl⟩

/-- However often units are written over each other, the last one at a place is there in the end. -/
theorem writeUnits?_at {units : List LoadUnit} (h : t.writeUnits? working outDir units = some t') (q : Place) :
    match lastAt? working outDir units q with
    | some u => t'.at? q = some (.file u.text)
    | none => t.KeepsAt t' q := by
  induction units generalizing t with
  | nil =>
    obtain rfl := Option.some.inj h
    exact .refl t q
  | cons u rest ih =>
    obtain ⟨t₁, hfirst, hrest⟩ := writeUnits?_cons.mp h
    have hstep := writeUnit?_at hfirst q
    have hlater := ih hrest
    rw [lastAt?_cons]
    cases hlast : lastAt? working outDir rest q with
    -- a later unit decides
    | some v =>
      rw [hlast] at hlater
      exact hlater
    -- no later unit touches the place, so it keeps what the first one leaves there
    | none =>
      rw [hlast] at hlater
      rw [Option.none_or]
      by_cases hq : (outDir.join u.path).destination working = q
      · rw [if_pos hq]
        rw [if_pos hq.symm] at hstep
        exact hlater.entry hstep
      · rw [if_neg hq]
        rw [if_neg (Ne.symm hq)] at hstep
        exact hstep.trans hlater

/-- The paths of units lead to where they are written. -/
theorem place?_of_mem {units : List LoadUnit} (h : t.writeUnits? working outDir units = some t')
    (hu : u ∈ units) :
    t'.place? working (outDir.join u.path) = some ((outDir.join u.path).destination working) := by
  induction units generalizing t with
  | nil => cases hu
  | cons v rest ih =>
    obtain ⟨t₁, hfirst, hrest⟩ := writeUnits?_cons.mp h
    obtain rfl | hu := List.mem_cons.mp hu
    · obtain ⟨made, -, hwrite⟩ := writeUnit?_eq_some hfirst
      obtain ⟨hplace, -, -⟩ := write?_eq_some hwrite
      exact place?_writeUnits? hrest (place?_keeps (write?_keeps hwrite).1 hplace)
    · exact ih hrest hu

/-- What units leave behind when they are written one after the other. -/
structure Written (t t' : FileTree) (working : Place) (outDir : Path) (units : List LoadUnit) : Prop where
  /-- Where units are written, there is a file with the text of the last. -/
  last : ∀ q u, lastAt? working outDir units q = some u → t'.at? q = some (.file u.text)
  /-- Nothing else changes, but for new directories. -/
  other : ∀ q, lastAt? working outDir units q = none → t.KeepsAt t' q
  /-- The path of each unit leads to the file where it is written. -/
  read : ∀ u ∈ units, t'.read? working (outDir.join u.path) =
    (lastAt? working outDir units ((outDir.join u.path).destination working)).map (·.text)

theorem written_of_writeUnits? {units : List LoadUnit} (h : t.writeUnits? working outDir units = some t') :
    t.Written t' working outDir units where
  last q u hlast := by
    have hat := writeUnits?_at h q
    rw [hlast] at hat
    exact hat
  other q hlast := by
    have hat := writeUnits?_at h q
    rw [hlast] at hat
    exact hat
  read u hu := by
    have hat := writeUnits?_at h ((outDir.join u.path).destination working)
    obtain ⟨v, hlast⟩ := Option.isSome_iff_exists.mp (lastAt?_isSome working outDir hu)
    rw [hlast] at hat ⊢
    rw [read?, entry?, place?_of_mem h hu, Option.bind_some, hat]
    rfl

end FileTree

/-! ### Writing as a command does -/

namespace Command

variable {working : Place} {outDir : Path} {t t' : FileTree}

/-- A command writes a unit where the tree takes it. -/
theorem writeUnit_run_iff {u : LoadUnit} :
    (writeUnit (FileTree.access working) outDir u).run.run t = (.ok (), t') ↔
      t.writeUnit? working outDir u = some t' := by
  have hwrite {made : FileTree} : (demand (.unwritableUnit (outDir.join u.path))
      ((FileTree.access working).write (outDir.join u.path) u.text)).run.run made = (.ok (), t') ↔
      made.write? working (outDir.join u.path) u.text = some t' :=
    demand_eq_ok.trans FileTree.orKeep_eq_true
  rw [writeUnit, FileTree.writeUnit?, FileTree.withParent?]
  cases (outDir.join u.path).parent? with
  | none => exact hwrite
  | some parent =>
    refine (run_bind_eq_ok.trans ?_).trans Option.bind_eq_some_iff.symm
    constructor
    · intro h
      obtain ⟨_, made, hmade, h⟩ := h
      exact ⟨made, FileTree.orKeep_eq_true.mp (demand_eq_ok.mp hmade), hwrite.mp h⟩
    · intro h
      obtain ⟨made, hmade, h⟩ := h
      exact ⟨(), made, demand_eq_ok.mpr (FileTree.orKeep_eq_true.mpr hmade), hwrite.mpr h⟩

theorem writeUnits_run_iff {units : List LoadUnit} :
    (units.forM (writeUnit (FileTree.access working) outDir)).run.run t = (.ok (), t') ↔
      t.writeUnits? working outDir units = some t' := by
  induction units generalizing t with
  | nil =>
    constructor
    · intro h
      exact congrArg some (Prod.mk.inj h).2
    · intro h
      obtain rfl := Option.some.inj h
      rfl
  | cons u rest ih =>
    rw [FileTree.writeUnits?_cons]
    refine run_bind_eq_ok.trans ?_
    constructor
    · intro h
      obtain ⟨_, t₁, hfirst, hrest⟩ := h
      exact ⟨t₁, writeUnit_run_iff.mp hfirst, ih.mp hrest⟩
    · intro h
      obtain ⟨t₁, hfirst, hrest⟩ := h
      exact ⟨(), t₁, writeUnit_run_iff.mpr hfirst, ih.mpr hrest⟩

end Command

end Lowering
