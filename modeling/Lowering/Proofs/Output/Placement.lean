import Lowering.Proofs.Compilation.InOrder
import Lowering.Proofs.Files.Destination
import Lowering.Proofs.Files.Writing
import Lowering.Proofs.Output.Loading
import Lowering.Proofs.Symbol.Identifiers

/-! Units side by side.

The units of a compilation are meant to be told apart by what they provide and to be written to
files of their own below one directory. Both depend on the names of their modules alone. What units
provide differs unless names are the same or, where they are flattened, a plain identifier meets
another one (`spelling_eq_iff`). Their files differ and are below the directory unless what stands
between dots and slashes is the same or a slash begins a segment. Nothing keeps the modules of a
program from having such names (`units_apart_iff`). -/
namespace Lowering

/-! ### Identifiers -/

namespace SymbolTable

variable (t : SymbolTable)

/-- The number in the identifier of a known name, zero in a plain one. -/
def number (n : Name) : Nat :=
  if t.contains n then
    (t.symbols.map (·.name)).countP fun m => m.flat = n.flat && decide (m < n)
  else 0

/-- Two plain identifiers are the same, or a plain one is that of a numbered name. -/
def Meet (a b : Name) : Prop :=
  (t.number a = 0 ∧ t.number b = 0 ∧ a.flat = b.flat) ∨
    (t.number a = 0 ∧ t.number b ≠ 0 ∧ a.flat = numbered b.flat (t.number b)) ∨
    (t.number a ≠ 0 ∧ t.number b = 0 ∧ b.flat = numbered a.flat (t.number a))

instance (a b : Name) : Decidable (t.Meet a b) :=
  inferInstanceAs (Decidable ((t.number a = 0 ∧ t.number b = 0 ∧ a.flat = b.flat) ∨
    (t.number a = 0 ∧ t.number b ≠ 0 ∧ a.flat = numbered b.flat (t.number b)) ∨
    (t.number a ≠ 0 ∧ t.number b = 0 ∧ b.flat = numbered a.flat (t.number a))))

end SymbolTable

namespace Registry

variable {r : Registry} {style : NameStyle} {t : SymbolTable} {d : Declaration} {a b n : Name}

theorem style_of_freeze (h : r.freeze style = .ok t) : t.style = style := by
  rw [eq_of_freeze h]

/-- The number of a registered name is its place in the group of its flattened form. -/
theorem number_of_freeze (h : r.freeze style = .ok t) (hd : d ∈ r.declarations) :
    t.number d.name = r.rank d := by
  rw [SymbolTable.number, if_pos (contains_of_freeze h hd), names_of_freeze h, List.countP_map]
  rfl

/-- Dotted identifiers are the names themselves. -/
theorem spelling_dotted (h : r.freeze .dotted = .ok t) (n : Name) : t.spelling n = n.text := by
  cases hn : t.contains n with
  | true =>
    obtain ⟨d, hd, rfl⟩ := exists_of_contains h hn
    rw [SymbolTable.spelling, outputName?_of_freeze h hd]
    rfl
  | false =>
    rw [SymbolTable.spelling_of_unknown hn, style_of_freeze h]
    rfl

/-- Flattened ones are plain, or numbered. -/
theorem spelling_flattened (h : r.freeze .flattened = .ok t) (n : Name) :
    t.spelling n = if t.number n = 0 then n.flat else numbered n.flat (t.number n) := by
  cases hn : t.contains n with
  | true =>
    obtain ⟨d, hd, rfl⟩ := exists_of_contains h hn
    rw [SymbolTable.spelling, outputName?_of_freeze h hd, number_of_freeze h hd]
    rfl
  | false =>
    rw [SymbolTable.spelling_of_unknown hn, style_of_freeze h, SymbolTable.number, hn]
    rfl

/-- A number tells a name from the others with its flattened form. -/
theorem eq_of_number_eq (h : r.freeze style = .ok t) (hflat : a.flat = b.flat)
    (hnumber : t.number a = t.number b) (hne : t.number a ≠ 0) : a = b := by
  have hknown {n : Name} (hn : t.number n ≠ 0) : ∃ d ∈ r.declarations, d.name = n := by
    rw [SymbolTable.number] at hn
    split at hn
    next hcontains => exact exists_of_contains h hcontains
    next => exact absurd rfl hn
  obtain ⟨d, hd, rfl⟩ := hknown hne
  obtain ⟨e, he, rfl⟩ := hknown (hnumber ▸ hne)
  rw [number_of_freeze h hd, number_of_freeze h he] at hnumber
  exact rank_inj hd he hflat hnumber

/-- Names that differ share an identifier where their identifiers meet. -/
theorem spelling_eq_iff (h : r.freeze .flattened = .ok t) (hne : a ≠ b) :
    t.spelling a = t.spelling b ↔ t.Meet a b := by
  rw [spelling_flattened h, spelling_flattened h, SymbolTable.Meet]
  by_cases ha : t.number a = 0 <;> by_cases hb : t.number b = 0
  · simp [ha, hb]
  · simp [ha, hb]
  · simp [ha, hb, eq_comm]
  · simp only [ha, hb, if_false, false_and, and_false, or_false, iff_false]
    intro heq
    obtain ⟨hflat, hnumber⟩ := numbered_inj heq
    exact hne (eq_of_number_eq h hflat hnumber ha)

/-- In either style. -/
theorem spelling_ne_iff (h : r.freeze style = .ok t) :
    t.spelling a ≠ t.spelling b ↔ a ≠ b ∧ (style = .dotted ∨ ¬t.Meet a b) := by
  by_cases hab : a = b
  · simp [hab]
  cases style with
  | dotted =>
    rw [spelling_dotted h, spelling_dotted h]
    have htext : a.text ≠ b.text := fun htext => hab (congrArg Name.mk htext)
    simp [hab, htext]
  | flattened =>
    rw [Ne, spelling_eq_iff h hab]
    simp [hab]

end Registry

/-! ### Compiled modules -/

namespace Program

variable {p : Program} {o : Options} {cancelled : Bool} {r : Compilation}

/-- A unit has its identifier and its path from the name of its module. -/
theorem unit_of_run (h : p.run o cancelled = .ok r) {u : LoadUnit} (hu : u ∈ r.units) :
    u.provide = r.table.spelling u.module ∧ u.path = u.module.outputPath := by
  obtain ⟨t, -, rfl⟩ := run_eq_ok h
  obtain ⟨m, -, hcompile⟩ := List.mem_map.mp (mem_successes.mp hu)
  obtain ⟨-, -, u', hu', outputs, -, hassemble, -⟩ | ⟨-, hfailed⟩ := m.compile_cases (t := t) (o := o)
  · obtain rfl := Except.ok.inj (hcompile.symm.trans hu')
    have hmade := Module.madeOf_of_assemble hassemble
    rw [hmade.module]
    exact ⟨hmade.provide, hmade.path⟩
  · cases hcompile.symm.trans hfailed

/-- The table of a run is frozen. -/
theorem freeze_of_run (h : p.run o cancelled = .ok r) :
    ∃ registry : Registry, registry.freeze o.nameStyle = .ok r.table := by
  obtain ⟨t, ht, rfl⟩ := run_eq_ok h
  exact ⟨_, (SymbolTable.freeze_of_ofProgram ht).2⟩

end Program

namespace Compilation

variable (r : Compilation)

/-- The units can be told apart, and each has a file of its own in whatever directory they are
written to. -/
structure Apart : Prop where
  provides : (r.units.map (·.provide)).Nodup
  relative : ∀ u ∈ r.units, u.path.isAbsolute = false
  paths : (r.units.map (·.path.steps)).Nodup

/-- What becomes of a tree of files when the units are written one after the other. -/
def written (working : Place) (outDir : Path) (t : FileTree) : Except Failure Unit × FileTree :=
  (r.units.forM (Command.writeUnit (FileTree.access working) outDir)).run.run t

/-- The names of the modules differ in what stands between dots and slashes, no segment of them
begins with a slash, and no two flattened ones meet. -/
structure NamedApart (style : NameStyle) : Prop where
  unrooted : ∀ u ∈ r.units, u.module.isRooted = false
  pieces : (r.units.map (·.module.pieces)).Nodup
  identifiers : style = .dotted ∨ r.units.Pairwise fun u v => ¬r.table.Meet u.module v.module

variable {r} {p : Program} {o : Options} {cancelled : Bool}

/-- What units provide differs where names differ and, if flattened, do not meet. -/
theorem provides_nodup_iff (h : p.run o cancelled = .ok r) :
    (r.units.map (·.provide)).Nodup ↔ r.units.Pairwise fun u v =>
      u.module ≠ v.module ∧ (o.nameStyle = .dotted ∨ ¬r.table.Meet u.module v.module) := by
  obtain ⟨registry, hfreeze⟩ := Program.freeze_of_run h
  rw [List.Nodup, List.pairwise_map]
  refine List.Pairwise.iff_of_mem fun {u v} hu hv => ?_
  rw [(Program.unit_of_run h hu).1, (Program.unit_of_run h hv).1]
  exact Registry.spelling_ne_iff hfreeze

/-- Units are written below a directory unless a segment of a name begins with a slash. -/
theorem relative_iff (h : p.run o cancelled = .ok r) :
    (∀ u ∈ r.units, u.path.isAbsolute = false) ↔ ∀ u ∈ r.units, u.module.isRooted = false := by
  refine forall₂_congr fun u hu => ?_
  rw [(Program.unit_of_run h hu).2, Name.isAbsolute_outputPath]

/-- Relative paths are the same where the pieces of names are. -/
theorem paths_nodup_iff (h : p.run o cancelled = .ok r) (hrooted : ∀ u ∈ r.units, u.module.isRooted = false) :
    (r.units.map (·.path.steps)).Nodup ↔ (r.units.map (·.module.pieces)).Nodup := by
  have hsteps : r.units.map (·.path.steps) =
      (r.units.map (·.module.pieces)).map (List.modifyLast (· ++ ".js")) := by
    rw [List.map_map]
    refine List.map_congr_left fun u hu => ?_
    rw [(Program.unit_of_run h hu).2, Name.steps_outputPath (hrooted u hu)]
    rfl
  rw [hsteps, List.nodup_map_iff Name.extended_injective]

/-- A unit is written to the file that is named after its module. -/
theorem destination_eq (h : p.run o cancelled = .ok r) {u : LoadUnit} (hu : u ∈ r.units)
    (hrooted : u.module.isRooted = false) (working : Place) (outDir : Path) :
    (outDir.join u.path).destination working =
      outDir.destination working ++ u.module.pieces.modifyLast (· ++ ".js") := by
  rw [(Program.unit_of_run h hu).2, Name.destination_outputPath hrooted]

/-- Different paths lead to different files in any directory. -/
theorem destinations_nodup_iff (h : p.run o cancelled = .ok r)
    (hrooted : ∀ u ∈ r.units, u.module.isRooted = false) (working : Place) (outDir : Path) :
    (r.units.map fun u => (outDir.join u.path).destination working).Nodup ↔
      (r.units.map (·.path.steps)).Nodup := by
  have hbelow : (r.units.map fun u => (outDir.join u.path).destination working) =
      (r.units.map (·.path.steps)).map (outDir.destination working ++ ·) := by
    rw [List.map_map]
    refine List.map_congr_left fun u hu => ?_
    rw [Function.comp_apply, destination_eq h hu (hrooted u hu), (Program.unit_of_run h hu).2,
      Name.steps_outputPath (hrooted u hu)]
  rw [hbelow, List.nodup_map_iff (List.append_right_injective _)]

end Compilation

/-- **The units of a run provide different identifiers and have different relative paths exactly
when the names of their modules stand apart. Then, in whatever directory units are written, each
has a file below it that is named after its module, and once all are written, each file has the
text of its unit.** -/
theorem units_apart_iff (p : Program) (o : Options) (cancelled : Bool) (r : Compilation)
    (h : p.run o cancelled = .ok r) :
    (r.Apart ↔ r.NamedApart o.nameStyle) ∧
      (r.Apart → ∀ (working : Place) (outDir : Path),
        (∀ u ∈ r.units, (outDir.join u.path).destination working =
          outDir.destination working ++ u.module.pieces.modifyLast (· ++ ".js")) ∧
        ∀ t, (r.written working outDir t).1 = .ok () →
          ∀ u ∈ r.units, (r.written working outDir t).2.read? working (outDir.join u.path) = some u.text) := by
  refine ⟨⟨fun hapart => ?_, fun hnamed => ?_⟩, fun hapart working outDir => ?_⟩
  · have hrooted := (Compilation.relative_iff h).mp hapart.relative
    have hidentifiers := (Compilation.provides_nodup_iff h).mp hapart.provides
    refine ⟨hrooted, (Compilation.paths_nodup_iff h hrooted).mp hapart.paths, ?_⟩
    by_cases hstyle : o.nameStyle = .dotted
    · exact .inl hstyle
    · exact .inr (hidentifiers.imp fun hpair => hpair.2.resolve_left hstyle)
  · have hnames : r.units.Pairwise fun u v => u.module ≠ v.module :=
      (List.pairwise_map.mp hnamed.pieces).imp fun hne heq => hne (congrArg Name.pieces heq)
    refine ⟨(Compilation.provides_nodup_iff h).mpr ?_, (Compilation.relative_iff h).mpr hnamed.unrooted,
      (Compilation.paths_nodup_iff h hnamed.unrooted).mpr hnamed.pieces⟩
    rcases hnamed.identifiers with hstyle | hfree
    · exact hnames.imp fun hne => ⟨hne, .inl hstyle⟩
    · exact (hnames.and hfree).imp fun hpair => ⟨hpair.1, .inr hpair.2⟩
  · have hrooted := (Compilation.relative_iff h).mp hapart.relative
    refine ⟨fun u hu => Compilation.destination_eq h hu (hrooted u hu) working outDir, fun t hwritten => ?_⟩
    have hdestinations := (Compilation.destinations_nodup_iff h hrooted working outDir).mpr hapart.paths
    exact Command.read?_of_writeUnits hdestinations (Prod.ext hwritten rfl)

/-- Three modules, the names of two of which flatten to one text. -/
def iconSets : Program where
  modules := [
    { name := ⟨"ui.Icon"⟩, classes := [{ name := ⟨"ui.Icon"⟩ }] },
    { name := ⟨"ui_Icon"⟩, classes := [{ name := ⟨"ui_Icon"⟩ }] },
    { name := ⟨"ui.large.Icon"⟩, classes := [{ name := ⟨"ui.large.Icon"⟩ }] }]

/-- The icon sets are told apart by a number, and each is written to a file of its own. -/
theorem iconSets_apart :
    ∃ r, iconSets.run { nameStyle := .flattened } false = .ok r ∧ r.Apart ∧
      r.units.map (·.provide) = ["ui_Icon", "ui_Icon$1", "ui_large_Icon"] ∧
      (r.written ["home"] ⟨"out"⟩ {}).1 = .ok () ∧
      ((r.written ["home"] ⟨"out"⟩ {}).2.files ["home", "out"]).map (·.1) =
        [⟨"ui/large/Icon.js"⟩, ⟨"ui_Icon.js"⟩, ⟨"ui/Icon.js"⟩] ∧
      ∀ u ∈ r.units, (r.written ["home"] ⟨"out"⟩ {}).2.read? ["home"] ((⟨"out"⟩ : Path).join u.path) =
        some u.text := by
  obtain ⟨hiff, hwritten⟩ := units_apart_iff iconSets { nameStyle := .flattened } false _ rfl
  have hapart := hiff.mpr ⟨by decide +kernel, by decide +kernel, .inr (by decide +kernel)⟩
  have hbuilt := (hwritten hapart ["home"] ⟨"out"⟩).2 {} (by decide +kernel)
  exact ⟨_, rfl, hapart, by decide +kernel, by decide +kernel, by decide +kernel, hbuilt⟩

/-- Two modules of one name, and one whose name begins with a slash. -/
def homonyms : Program where
  modules := [
    { name := ⟨"app.Main"⟩, classes := [{ name := ⟨"app.Main"⟩ }] },
    { name := ⟨"app.Main"⟩, classes := [{ name := ⟨"app.Helper"⟩ }] },
    { name := ⟨"/srv.Main"⟩, classes := [{ name := ⟨"srv.Main"⟩ }] }]

/-- All three compile, but the second is written over the first, and the third outside of the
output directory. -/
theorem homonyms_overwritten :
    ∃ r, homonyms.run {} false = .ok r ∧ r.errors = [] ∧
      r.units.map (fun u => (u.provide, u.path)) = [("app.Main", ⟨"app/Main.js"⟩),
        ("app.Main", ⟨"app/Main.js"⟩), ("/srv.Main", ⟨"/srv/Main.js"⟩)] ∧
      ¬(r.units.map (·.provide)).Nodup ∧ ¬(r.units.map (·.path)).Nodup ∧
      ¬(∀ u ∈ r.units, u.path.isAbsolute = false) ∧
      (r.written ["home"] ⟨"out"⟩ {}).1 = .ok () ∧
      ((r.written ["home"] ⟨"out"⟩ {}).2.files []).map (·.1) =
        [⟨"srv/Main.js"⟩, ⟨"home/out/app/Main.js"⟩] :=
  ⟨_, rfl, by decide +kernel, by decide +kernel, by decide +kernel, by decide +kernel, by decide +kernel,
    by decide +kernel, by decide +kernel⟩

end Lowering
