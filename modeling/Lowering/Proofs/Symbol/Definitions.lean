import Lowering.Proofs.Symbol.Freezing
import Lowering.Proofs.Symbol.Registering

/-! One definition for each name.

A program is rejected for a name exactly where two declarations of it differ, and a class is
compared by its declaration alone. So classes of one name are one definition, or rejected, as
far as their declarations tell them apart (`definitions_rejected_iff`), which they do not where
the classes differ in their members only (`counter_defined_twice`). -/
namespace Lowering

/-- The class with all its members, its tree and its metadata, but without places in the source. -/
def ClassDecl.placeless (c : ClassDecl) : ClassDecl :=
  { c with
    methods := c.methods.map fun m => { m with location := none }
    events := c.events.map fun e => { e with location := none }
    tree := c.tree.map fun t => { t with nodes := t.nodes.map fun n => { n with location := none } }
    location := none }

namespace Program

variable (p : Program) (style : NameStyle) (n : Name)

/-- The classes of the name are the same up to places. -/
def OneDefinition : Prop :=
  ∀ c ∈ p.classes, ∀ c' ∈ p.classes, c.name = n → c'.name = n → c.placeless = c'.placeless

/-- The declarations of the name are the same up to places. -/
def OneDeclaration : Prop :=
  ∀ d ∈ p.declarations, ∀ e ∈ p.declarations, d.name = n → e.name = n → d.sameDefinition e = true

/-- The program is rejected for different definitions of the name. -/
def RejectedFor : Prop :=
  ∃ errors first second, SymbolTable.ofProgram p style = .error errors ∧
    .duplicateSymbol n first second ∈ errors

end Program

/-- What keeps a registry from being frozen is not a second definition. -/
theorem Registry.not_mem_faults (r : Registry) (n : Name) (first second : Option Location) :
    .duplicateSymbol n first second ∉ r.faults := by
  obtain ⟨cycles, -, hfaults⟩ := r.faults_eq
  simp [hfaults, dangling, cycleFault]

namespace Program

variable {p : Program} {style : NameStyle} {n : Name}

theorem rejectedFor_iff : p.RejectedFor style n ↔ ¬p.OneDeclaration n := by
  have hreported := Registry.reported_iff p.declarations n
  have hrejected : p.RejectedFor style n ↔
      ∃ first second, .duplicateSymbol n first second ∈ (Registry.empty.registerAll p.declarations).2 := by
    unfold RejectedFor
    rw [SymbolTable.ofProgram_eq]
    split
    next hnil =>
      rw [hnil]
      constructor
      · rintro ⟨errors, first, second, hfreeze, hmem⟩
        obtain ⟨-, rfl⟩ := (Registry.freeze_eq_error style errors).mp hfreeze
        exact absurd hmem (Registry.not_mem_faults _ n first second)
      · rintro ⟨first, second, hmem⟩
        cases hmem
    next =>
      constructor
      · rintro ⟨errors, first, second, herrors, hmem⟩
        obtain rfl := Except.error.inj herrors
        exact ⟨first, second, hmem⟩
      · rintro ⟨first, second, hmem⟩
        exact ⟨_, first, second, rfl, hmem⟩
  rw [hrejected, hreported]
  simp only [OneDeclaration, Declaration.sameDefinition_iff]
  constructor
  · rintro ⟨d, hd, e, he, hdn, hen, hdiffers⟩ hsame
    exact hdiffers (hsame d hd e he hdn hen)
  · intro hnot
    by_contra hnone
    refine hnot fun d hd e he hdn hen => ?_
    by_contra hdiffers
    exact hnone ⟨d, hd, e, he, hdn, hen, hdiffers⟩

end Program

/-- **A program is rejected for a name exactly where two declarations of the name differ. So
classes of one name are one definition in every program that is accepted, and rejected where they
are not, exactly where names with one declaration have one definition.** -/
theorem definitions_rejected_iff (p : Program) (style : NameStyle) :
    (∀ n, p.RejectedFor style n ↔ ¬p.OneDeclaration n) ∧
      (((∀ t, SymbolTable.ofProgram p style = .ok t → ∀ n, p.OneDefinition n) ∧
          ∀ n, ¬p.OneDefinition n → p.RejectedFor style n) ↔
        ∀ n, p.OneDeclaration n → p.OneDefinition n) := by
  refine ⟨fun n => Program.rejectedFor_iff, ?_⟩
  simp only [Program.rejectedFor_iff]
  constructor
  · rintro ⟨-, hrejected⟩ n hdeclaration
    by_contra hdefinition
    exact hrejected n hdefinition hdeclaration
  · intro h
    refine ⟨fun t ht n => h n ?_, fun n => mt (h n)⟩
    by_contra hdeclaration
    have hrejected : p.RejectedFor style n := Program.rejectedFor_iff.mpr hdeclaration
    obtain ⟨errors, _, _, herrors, -⟩ := hrejected
    rw [herrors] at ht
    cases ht

/-- Two modules with a class of one name, of which one has a field and the other none. -/
def twoCounters : Program where
  modules := [
    { name := ⟨"app.Counter"⟩, classes := [{ name := ⟨"app.Counter"⟩ }] },
    { name := ⟨"lib.Counter"⟩,
      classes := [{ name := ⟨"app.Counter"⟩, fields := [{ name := "count", type := .builtin "int" }] }] }]

/-- The two classes are accepted for one. -/
theorem counter_defined_twice :
    (∃ t, SymbolTable.ofProgram twoCounters .dotted = .ok t) ∧
      ¬twoCounters.OneDefinition ⟨"app.Counter"⟩ ∧ ¬twoCounters.RejectedFor .dotted ⟨"app.Counter"⟩ := by
  have haccepted : SymbolTable.ofProgram twoCounters .dotted = .ok _ := rfl
  refine ⟨⟨_, haccepted⟩, fun hone => ?_, ?_⟩
  · have hsame := hone { name := ⟨"app.Counter"⟩ } (by simp [twoCounters, Program.classes])
      { name := ⟨"app.Counter"⟩, fields := [{ name := "count", type := .builtin "int" }] }
      (by simp [twoCounters, Program.classes]) rfl rfl
    exact absurd (congrArg (fun c => c.fields.length) hsame) (by decide)
  · rintro ⟨errors, first, second, herrors, -⟩
    rw [haccepted] at herrors
    cases herrors

end Lowering
