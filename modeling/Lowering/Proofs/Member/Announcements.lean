import Lowering.Literal
import Lowering.Member.Setter

/-! What setters announce.

A bindable setter keeps the stored value when an equal one comes in, so after a run the stored value
equals the last one that came in without having to be the same: of the two zeros, which are equal,
the first that came stays. Every step keeps the stored value equal to the latest one (`apply_beq`),
and so a step announces a change exactly where a value differs from the one before it
(`changes_announced`). -/
namespace Lowering

variable {V : Type}

/-- Each change starts where the one before it ends, the first at `initial`, and the last of them
ends at `final`. -/
def Change.Chain (initial : V) (final : V) : List (Change V) → Prop
  | [] => final = initial
  | c :: rest => c.old = initial ∧ Chain c.new final rest

namespace Setter

variable [BEq V] (s : Setter) (initial : V) (values : List V)

/-- The stored value after a run. -/
def finalValue : V := (s.run initial values).foldl SetOutcome.valueAfter initial

/-- What a run announces, in order. -/
def changes : List (Change V) := (s.run initial values).filterMap (·.change?)

/-- How many values differ from the one before them, the first from `initial`. -/
def alterations : Nat := ((initial :: values).zip values).countP fun (before, v) => before != v

variable {s initial values} {stored last incoming : V}

/-! ### One value -/

theorem apply_plain (h : s.bindable = false) : s.apply stored incoming = .stored incoming none := by
  rw [apply, h]
  rfl

theorem apply_equal (h : s.bindable = true) (heq : (stored == incoming) = true) :
    s.apply stored incoming = .unchanged := by
  rw [apply, h, if_neg (by decide), if_pos heq]

theorem apply_different (h : s.bindable = true) (hne : (stored == incoming) = false) :
    s.apply stored incoming = .stored incoming (some ⟨s.property, stored, incoming⟩) := by
  rw [apply, h, if_neg (by decide), hne, if_neg Bool.false_ne_true]

/-- Whatever comes in, the stored value equals it afterwards. -/
theorem apply_beq [EquivBEq V] (h : s.bindable = true) :
    ((s.apply stored incoming).valueAfter stored == incoming) = true := by
  cases heq : stored == incoming with
  | true =>
    rw [apply_equal h heq]
    exact heq
  | false =>
    rw [apply_different h heq]
    exact BEq.rfl

/-! ### A run -/

theorem finalValue_cons : s.finalValue stored (incoming :: values) =
    s.finalValue ((s.apply stored incoming).valueAfter stored) values := rfl

theorem changes_cons : s.changes stored (incoming :: values) =
    (s.apply stored incoming).change?.toList ++
      s.changes ((s.apply stored incoming).valueAfter stored) values := by
  rw [changes, run, List.filterMap_cons]
  cases (s.apply stored incoming).change? <;> rfl

theorem alterations_cons : alterations last (incoming :: values) =
    alterations incoming values + if last != incoming then 1 else 0 := by
  rw [alterations, List.zip_cons_cons, List.countP_cons]
  rfl

/-- A value that differs makes a change to be announced, before those of the rest. -/
theorem changes_of_different (h : s.bindable = true) (hne : (stored == incoming) = false) :
    s.changes stored (incoming :: values) =
      ⟨s.property, stored, incoming⟩ :: s.changes incoming values := by
  rw [changes_cons, apply_different h hne]
  rfl

/-- An equal value makes none. -/
theorem changes_of_equal (h : s.bindable = true) (heq : (stored == incoming) = true) :
    s.changes stored (incoming :: values) = s.changes stored values := by
  rw [changes_cons, apply_equal h heq]
  rfl

/-- The stored value equals the latest one all along. -/
theorem finalValue_beq [EquivBEq V] (h : s.bindable = true) (hstored : (stored == last) = true) :
    (s.finalValue stored values == values.getLast?.getD last) = true := by
  induction values generalizing stored last with
  | nil => exact hstored
  | cons incoming rest ih =>
    rw [finalValue_cons, List.getLast?_cons]
    exact ih (apply_beq h)

theorem changes_chain (h : s.bindable = true) :
    Change.Chain stored (s.finalValue stored values) (s.changes stored values) := by
  induction values generalizing stored with
  | nil => rfl
  | cons incoming rest ih =>
    rw [finalValue_cons]
    cases heq : stored == incoming with
    | true =>
      rw [changes_of_equal h heq, apply_equal h heq]
      exact ih
    | false =>
      rw [changes_of_different h heq, apply_different h heq]
      exact ⟨rfl, ih⟩

theorem of_mem_changes (h : s.bindable = true) :
    ∀ c ∈ s.changes stored values, c.property = s.property ∧ (c.old == c.new) = false := by
  induction values generalizing stored with
  | nil => exact fun _ hc => nomatch hc
  | cons incoming rest ih =>
    cases heq : stored == incoming with
    | true =>
      rw [changes_of_equal h heq]
      exact ih
    | false =>
      rw [changes_of_different h heq]
      exact List.forall_mem_cons.mpr ⟨⟨rfl, heq⟩, ih⟩

/-- What equals the stored value is what equals the latest one, so both are left alike. -/
theorem length_changes [EquivBEq V] (h : s.bindable = true) (hstored : (stored == last) = true) :
    (s.changes stored values).length = alterations last values := by
  induction values generalizing stored last with
  | nil => rfl
  | cons incoming rest ih =>
    rw [alterations_cons, bne, ← BEq.congr_left hstored]
    cases heq : stored == incoming with
    | true =>
      rw [changes_of_equal h heq, ih heq]
      rfl
    | false =>
      rw [changes_of_different h heq, List.length_cons, ih BEq.rfl]
      rfl

/-- A plain setter stores each value and announces none. -/
theorem plain_run (h : s.bindable = false) :
    s.finalValue stored values = values.getLast?.getD stored ∧ s.changes stored values = [] := by
  induction values generalizing stored with
  | nil => exact ⟨rfl, rfl⟩
  | cons incoming rest ih =>
    rw [finalValue_cons, changes_cons, apply_plain h, List.getLast?_cons]
    exact ih

/-- **A run of a bindable setter ends with a value equal to the last one that came in. What it
announces is a chain of changes from the initial value to the stored one, each between different
values and as many as there are values that differ from the one before them. A plain setter ends with
the last value itself and announces nothing.** -/
theorem changes_announced {V : Type} [BEq V] [EquivBEq V] (s : Setter) (initial : V) (values : List V) :
    (s.bindable = true →
      (s.finalValue initial values == values.getLast?.getD initial) = true ∧
      Change.Chain initial (s.finalValue initial values) (s.changes initial values) ∧
      (∀ c ∈ s.changes initial values, c.property = s.property ∧ (c.old == c.new) = false) ∧
      (s.changes initial values).length = alterations initial values) ∧
    (s.bindable = false →
      s.finalValue initial values = values.getLast?.getD initial ∧ s.changes initial values = []) := by
  constructor
  · intro h
    exact ⟨finalValue_beq h BEq.rfl, changes_chain h, of_mem_changes h, length_changes h BEq.rfl⟩
  · intro h
    exact plain_run h

end Setter

/-! ### Literals -/

namespace Binary64

variable {x y z : Binary64}

theorem sameValue_iff : x.sameValue y = true ↔
    x.isNaN = false ∧ y.isNaN = false ∧ (x = y ∨ x.isZero = true ∧ y.isZero = true) := by
  simp [sameValue, and_assoc]

theorem sameValue_symm (h : x.sameValue y = true) : y.sameValue x = true := by
  rw [sameValue_iff] at h ⊢
  exact ⟨h.2.1, h.1, h.2.2.imp Eq.symm And.symm⟩

/-- Numbers are equal if they are the same or both are zeros. -/
theorem sameValue_trans (h : x.sameValue y = true) (h' : y.sameValue z = true) :
    x.sameValue z = true := by
  rw [sameValue_iff] at h h' ⊢
  refine ⟨h.1, h'.2.1, ?_⟩
  rcases h.2.2 with rfl | hzeros
  · exact h'.2.2
  · rcases h'.2.2 with rfl | hzeros'
    · exact .inr hzeros
    · exact .inr ⟨hzeros.1, hzeros'.2⟩

end Binary64

namespace Literal

/-- The literals that equal themselves, which all do but the number that is none. -/
abbrev Comparable := { v : Literal // v.sameValue v = true }

instance : BEq Comparable := ⟨fun a b => a.val.sameValue b.val⟩

theorem sameValue_symm {a b : Literal} (h : a.sameValue b = true) : b.sameValue a = true := by
  cases a <;> cases b <;> grind [sameValue, Binary64.sameValue_symm]

theorem sameValue_trans {a b c : Literal} (h : a.sameValue b = true) (h' : b.sameValue c = true) :
    a.sameValue c = true := by
  cases a <;> cases b <;> cases c <;> grind [sameValue, Binary64.sameValue_trans]

instance : EquivBEq Comparable where
  rfl {a} := a.property
  symm := sameValue_symm
  trans := sameValue_trans

/-- The zero with either sign. -/
def Comparable.zero (negative : Bool) : Comparable :=
  ⟨.number (.zero negative), by decide +revert⟩

def Comparable.name (text : String) : Comparable :=
  ⟨.string text, beq_self_eq_true (Literal.string text)⟩

end Literal

def slider : Setter := ⟨"value", true⟩

/-- What a slider at zero is set to: zeros, which are all equal, and a name between them. -/
def sliderStops : List Literal.Comparable := [.zero true, .name "top", .name "top", .zero false, .zero true]

/-- The slider announces two changes, and it stays at zero while the negative zero came in last. -/
theorem slider_announced :
    slider.bindable = true ∧
      (slider.finalValue (.zero false) sliderStops == .zero true) = true ∧
      slider.finalValue (.zero false) sliderStops ≠ .zero true ∧
      Change.Chain (.zero false) (slider.finalValue (.zero false) sliderStops)
        (slider.changes (.zero false) sliderStops) ∧
      (slider.changes (.zero false) sliderStops).length = 2 := by
  have hrun := (Setter.changes_announced slider (.zero false) sliderStops).1 rfl
  exact ⟨rfl, hrun.1, by decide, hrun.2.1, hrun.2.2.2.trans (by decide)⟩

end Lowering
