import Lowering.Compilation
import Lowering.Proofs.Outcome

/-! Results and the modules they belong to.

Classes are emitted in some order, and the modules take their results back from one list.
After any part of an order exactly the slots of the positions in it are filled
(`holdsAt_filled`), each with the result of its own class, so an order that leaves no class
out fills all of them alike. A module that takes as many results as it declares classes then
has those of its own classes in front of it, and leaves those of the modules after it
(`concludeEach_emitted`). So a program is compiled as if each module were compiled by itself
(`runInOrder_eq`). -/
namespace Lowering

/-! ### Successes and failures -/

section
variable {ε α β : Type} {results : List (Except ε α)}

theorem mem_successes {a : α} : a ∈ successes results ↔ .ok a ∈ results := by
  rw [successes, List.mem_filterMap]
  constructor
  · intro hright
    obtain ⟨result, hmem, ha⟩ := hright
    cases result with
    | error e => cases ha
    | ok b => exact Option.some.inj ha ▸ hmem
  · exact fun h => ⟨.ok a, h, rfl⟩

theorem mem_failures {e : ε} : e ∈ failures results ↔ .error e ∈ results := by
  rw [failures, List.mem_filterMap]
  constructor
  · intro hright
    obtain ⟨result, hmem, he⟩ := hright
    cases result with
    | ok a => cases he
    | error e' => exact Option.some.inj he ▸ hmem
  · exact fun h => ⟨.error e, h, rfl⟩

theorem failures_map (f : α → β) (results : List (Except ε α)) :
    failures (results.map (·.map f)) = failures results := by
  induction results with
  | nil => rfl
  | cons result rest ih =>
    cases result with
    | ok a => exact ih
    | error e => exact congrArg (e :: ·) ih

theorem successes_map (f : α → β) (results : List (Except ε α)) :
    successes (results.map (·.map f)) = (successes results).map f := by
  induction results with
  | nil => rfl
  | cons result rest ih =>
    cases result with
    | ok a => exact congrArg (f a :: ·) ih
    | error e => exact ih

theorem failures_append (results others : List (Except ε α)) :
    failures (results ++ others) = failures results ++ failures others := List.filterMap_append ..

/-- Steps that fail where others do, and in the same way, have all of the failures of the others. -/
theorem failures_sublist {γ : Type} {f : γ → Except ε α} {g : γ → Except ε β} {as : List γ}
    (h : ∀ a ∈ as, ∀ e, f a = .error e → g a = .error e) :
    (failures (as.map f)).Sublist (failures (as.map g)) := by
  induction as with
  | nil => exact List.Sublist.refl _
  | cons a rest ih =>
    obtain ⟨ha, hrest⟩ := List.forall_mem_cons.mp h
    have hsublist := ih hrest
    rw [List.map_cons, List.map_cons, ← List.singleton_append, failures_append,
      ← List.singleton_append (x := g a), failures_append]
    refine List.Sublist.append ?_ hsublist
    cases hf : f a with
    | ok => exact List.nil_sublist _
    | error e =>
      rw [ha e hf]
      exact List.Sublist.refl _

end

/-! ### Filling slots -/

namespace Slots

variable {classes : List ClassDecl} {t : SymbolTable} {o : Options}

variable (classes t o) in
/-- The slots of the positions in `done` are filled, each with the result of its class. -/
structure HoldsAt (done : List Nat) (slots : Slots) : Prop where
  length : slots.length = classes.length
  get : ∀ i c, classes[i]? = some c →
    slots[i]? = some (if i ∈ done then some (c.emit t o) else none)

variable (classes t o) in
theorem holdsAt_nil : HoldsAt classes t o [] (List.replicate classes.length none) where
  length := List.length_replicate
  get := by
    intro i c hc
    obtain ⟨hi, -⟩ := List.getElem?_eq_some_iff.mp hc
    simp [hi]

/-- Emitting one more class fills its slot and leaves the others. -/
theorem HoldsAt.fill {done : List Nat} {slots : Slots} (h : HoldsAt classes t o done slots) (i : Nat) :
    HoldsAt classes t o (i :: done) (fill classes t o slots i) := by
  unfold Slots.fill
  cases hi : classes[i]? with
  | none =>
    refine ⟨h.length, fun j c hc => ?_⟩
    have hne : j ≠ i := by
      rintro rfl
      rw [hi] at hc
      cases hc
    simp [h.get j c hc, hne]
  | some d =>
    refine ⟨by rw [List.length_set, h.length], fun j c hc => ?_⟩
    by_cases hj : i = j
    · subst hj
      obtain rfl := Option.some.inj (hi.symm.trans hc)
      obtain ⟨hlt, -⟩ := List.getElem?_eq_some_iff.mp hc
      simp [h.length, hlt]
    · simp [List.getElem?_set_ne hj, h.get j c hc, Ne.symm hj]

theorem HoldsAt.foldl {done order : List Nat} {slots : Slots} (h : HoldsAt classes t o done slots) :
    HoldsAt classes t o (order.reverse ++ done) (order.foldl (Slots.fill classes t o) slots) := by
  induction order generalizing done slots with
  | nil => exact h
  | cons i rest ih =>
    rw [List.reverse_cons, List.append_assoc]
    exact ih (h.fill i)

variable (classes t o) in
/-- However classes get their turn, those that had it have their results in their slots. -/
theorem holdsAt_filled (order : List Nat) :
    HoldsAt classes t o order.reverse (filled classes t o order) := by
  rw [← List.append_nil order.reverse]
  exact (holdsAt_nil classes t o).foldl

/-- An order that leaves no class out fills every slot. -/
theorem filled_eq {order : List Nat} (h : ∀ i < classes.length, i ∈ order) :
    filled classes t o order = classes.map fun c => some (c.emit t o) := by
  have hholds := holdsAt_filled classes t o order
  apply List.ext_getElem?
  intro i
  cases hc : classes[i]? with
  | none =>
    have hi := List.getElem?_eq_none_iff.mp hc
    rw [List.getElem?_map, hc]
    exact List.getElem?_eq_none_iff.mpr (hholds.length ▸ hi)
  | some c =>
    obtain ⟨hlt, -⟩ := List.getElem?_eq_some_iff.mp hc
    rw [hholds.get i c hc, if_pos (List.mem_reverse.mpr (h i hlt)), List.getElem?_map, hc]
    rfl

/-- Filled slots give every class its result. -/
theorem collect_filled (results : ClassDecl → Except Error ClassOutput) :
    collect classes (classes.map fun c => some (results c)) = .ok (classes.map results) := by
  unfold collect
  have hzip : (classes.map fun c => some (results c)).zip classes =
      classes.map fun c => (some (results c), c) := by
    calc (classes.map fun c => some (results c)).zip classes
        = (classes.map fun c => some (results c)).zip (classes.map id) := by rw [List.map_id]
      _ = classes.map fun c => (some (results c), c) := List.zip_map'
  rw [hzip, List.mapM_map]
  exact mapM_eq_map fun c _ => rfl

end Slots

/-! ### Taking shares -/

/-- Each module finds the results of its own classes in front of it. -/
theorem concludeEach_emitted (t : SymbolTable) (o : Options) (ms : List Module) :
    concludeEach t o ms (ms.flatMap fun m => m.emitClasses t o) = ms.map fun m => m.compile t o := by
  induction ms with
  | nil => rfl
  | cons m rest ih =>
    have hlength : (m.emitClasses t o).length = m.classes.length := List.length_map ..
    rw [List.flatMap_cons, concludeEach, List.map_cons, List.take_left' hlength,
      List.drop_left' hlength, ih]
    rfl

namespace Program

variable {p : Program} {o : Options} {t : SymbolTable} {order : List Nat}

/-- Compiles every module of a program by itself. -/
def compileWith (p : Program) (t : SymbolTable) (o : Options) : Compilation where
  units := successes (p.modules.map fun m => m.compile t o)
  errors := (failures (p.modules.map fun m => m.compile t o)).flatten
  table := t

theorem assemble_emitted (t : SymbolTable) (o : Options) :
    p.assemble t o (p.classes.map fun c => c.emit t o) = p.compileWith t o := by
  have hclasses : (p.classes.map fun c => c.emit t o) = p.modules.flatMap fun m => m.emitClasses t o :=
    List.map_flatMap ..
  rw [assemble, hclasses, concludeEach_emitted]
  rfl

/-- The order does not matter, as long as no class is left out. -/
theorem runInOrder_eq (horder : ∀ i < p.classes.length, i ∈ order) :
    p.runInOrder o order = (SymbolTable.ofProgram p o.nameStyle).map fun t => p.compileWith t o := by
  unfold runInOrder
  cases SymbolTable.ofProgram p o.nameStyle with
  | error errors => rfl
  | ok t =>
    show (do
      let results ← (Slots.filled p.classes t o order).collect p.classes
      return p.assemble t o results) = .ok (p.compileWith t o)
    rw [Slots.filled_eq horder, Slots.collect_filled, ← assemble_emitted]
    rfl

/-- A run takes the classes as they come. -/
theorem run_eq : p.run o false = (SymbolTable.ofProgram p o.nameStyle).map fun t => p.compileWith t o := by
  rw [run, if_neg Bool.false_ne_true]
  exact runInOrder_eq fun i hi => List.mem_range.mpr hi

/-- A run that gives something was not cancelled, and compiled every module by itself. -/
theorem run_eq_ok {cancelled : Bool} {r : Compilation} (h : p.run o cancelled = .ok r) :
    ∃ t, SymbolTable.ofProgram p o.nameStyle = .ok t ∧ p.compileWith t o = r := by
  cases cancelled with
  | true => cases h
  | false =>
    rw [run_eq] at h
    exact map_eq_ok.mp h

theorem compile_of_run_error {cancelled : Bool} {errors : List Error} (h : p.run o cancelled = .error errors) :
    p.compile o cancelled = .error errors := by
  rw [compile, h]
  rfl

/-- Failures of modules are failures of the whole. -/
theorem compile_of_run {cancelled : Bool} {r : Compilation} (h : p.run o cancelled = .ok r) :
    p.compile o cancelled = if r.errors.isEmpty then .ok r else .error r.errors := by
  rw [compile, h]
  obtain ⟨units, errors, table⟩ := r
  cases errors with
  | nil => rfl
  | cons e rest => rfl

end Program

end Lowering
