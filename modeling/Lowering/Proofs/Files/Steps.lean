import Lowering.Files.Tree
import Mathlib.Data.List.ModifyLast
import Mathlib.Data.List.TakeWhile

/-! Steps of paths.

A path leads through its components, less those that lead nowhere (`Path.steps`), from the root or
from the working directory. Joining a relative path adds its steps to those that come before
(`steps_join`), and an extension belongs to the last step (`steps_withExtension`). Where a tree of
files lets a path lead, it leads where its steps do (`place?_eq`). -/
namespace Lowering

namespace Path

/-- The components that lead somewhere. -/
def steps (p : Path) : List String := p.components.filter fun component => !isIdle component

/-! ### Components -/

theorem splitSlashes_ne_nil (cs : List Char) : splitSlashes cs ≠ [] := by
  cases cs with
  | nil => exact List.cons_ne_nil _ _
  | cons c rest =>
    rw [splitSlashes]
    split
    · exact List.cons_ne_nil _ _
    · split <;> exact List.cons_ne_nil _ _

theorem splitSlashes_append_slash (xs ys : List Char) :
    splitSlashes (xs ++ '/' :: ys) = splitSlashes xs ++ splitSlashes ys := by
  induction xs with
  | nil => rfl
  | cons c rest ih =>
    rw [List.cons_append, splitSlashes, splitSlashes, ih]
    split
    · rfl
    · cases hrest : splitSlashes rest with
      | nil => exact absurd hrest (splitSlashes_ne_nil rest)
      | cons part parts => rfl

theorem splitSlashes_of_not_mem {cs : List Char} (h : '/' ∉ cs) : splitSlashes cs = [cs] := by
  induction cs with
  | nil => rfl
  | cons c rest ih =>
    rw [List.mem_cons, not_or] at h
    rw [splitSlashes, if_neg (Ne.symm h.1), ih h.2]

/-- Components are made of the characters of the path. -/
theorem mem_of_mem_splitSlashes {cs part : List Char} {c : Char} (hpart : part ∈ splitSlashes cs)
    (hc : c ∈ part) : c ∈ cs := by
  induction cs generalizing part with
  | nil =>
    rw [splitSlashes, List.mem_singleton] at hpart
    rw [hpart] at hc
    exact hc
  | cons d rest ih =>
    rw [splitSlashes] at hpart
    split at hpart
    · rcases List.mem_cons.mp hpart with rfl | hpart
      · cases hc
      · exact List.mem_cons_of_mem d (ih hpart hc)
    · cases hrest : splitSlashes rest with
      | nil => exact absurd hrest (splitSlashes_ne_nil rest)
      | cons first others =>
        rw [hrest] at hpart ih
        rcases List.mem_cons.mp hpart with rfl | hpart
        · rcases List.mem_cons.mp hc with rfl | hc
          · exact List.mem_cons_self
          · exact List.mem_cons_of_mem d (ih List.mem_cons_self hc)
        · exact List.mem_cons_of_mem d (ih (List.mem_cons_of_mem first hpart) hc)

/-! ### Steps -/

theorem steps_empty : steps ⟨""⟩ = [] := rfl

/-- A slash parts the steps before it from those after it. -/
theorem steps_append_slash (a b : String) : steps ⟨a ++ "/" ++ b⟩ = steps ⟨a⟩ ++ steps ⟨b⟩ := by
  have hchars : (a ++ "/" ++ b).toList = a.toList ++ '/' :: b.toList := by simp
  rw [steps, components, hchars, splitSlashes_append_slash, List.map_append, List.filter_append]
  rfl

/-- What holds no slash is one step, unless it leads nowhere. -/
theorem steps_of_not_mem {a : String} (hslash : '/' ∉ a.toList) (hidle : isIdle a = false) :
    steps ⟨a⟩ = [a] := by
  rw [steps, components, splitSlashes_of_not_mem hslash, List.map_singleton, String.ofList_toList]
  exact List.filter_cons_of_pos (by rw [hidle]; rfl)

/-- A component with anything but dots leads somewhere. -/
theorem isIdle_eq_false {a : String} {c : Char} (hc : c ∈ a.toList) (hdot : c ≠ '.') : isIdle a = false := by
  rw [isIdle, Bool.or_eq_false_iff, decide_eq_false_iff_not, decide_eq_false_iff_not]
  constructor
  · rintro rfl
    cases hc
  · rintro rfl
    exact hdot (List.mem_singleton.mp hc)

theorem mem_of_mem_steps {p : Path} {step : String} {c : Char} (hstep : step ∈ p.steps)
    (hc : c ∈ step.toList) : c ∈ p.text.toList := by
  obtain ⟨part, hpart, rfl⟩ := List.mem_map.mp (List.mem_filter.mp hstep).1
  rw [String.toList_ofList] at hc
  exact mem_of_mem_splitSlashes hpart hc

/-- Behind the last slash is the last component, and whatever is appended belongs to it. -/
theorem exists_last (a : String) :
    ∃ (before : List String) (last : String), '/' ∉ last.toList ∧ last.toList <:+ a.toList ∧
      (last = "" → a = "" ∨ a.toList.getLast? = some '/') ∧
      ∀ b, steps ⟨a ++ b⟩ = before ++ steps ⟨last ++ b⟩ := by
  by_cases hslash : '/' ∈ a.toList
  -- the last slash is the first one from behind
  · obtain ⟨last, front, hrev, hlast⟩ := List.eq_append_cons_of_mem (List.mem_reverse.mpr hslash)
    have hchars : a.toList = front.reverse ++ '/' :: last.reverse := by
      rw [← List.reverse_reverse a.toList, hrev]
      simp
    have htext : a = String.ofList front.reverse ++ "/" ++ String.ofList last.reverse := by
      rw [← String.toList_inj, hchars]
      simp
    refine ⟨steps ⟨String.ofList front.reverse⟩, String.ofList last.reverse, by simpa using hlast, ?_, ?_, ?_⟩
    · rw [hchars, String.toList_ofList]
      exact ⟨front.reverse ++ ['/'], by simp⟩
    · intro hempty
      have hnil : last.reverse = [] := by simpa using congrArg String.toList hempty
      rw [hchars, hnil]
      exact .inr (by simp)
    · intro b
      rw [← steps_append_slash, ← String.append_assoc, ← htext]
  · exact ⟨[], a, hslash, List.suffix_rfl, .inl, fun _ => rfl⟩

/-! ### Joined paths -/

theorem isAbsolute_eq (p : Path) : p.isAbsolute = (p.text.toList.head? == some '/') := by
  rw [isAbsolute]
  cases p.text.toList with
  | nil => rfl
  | cons c rest =>
    rw [List.isPrefixOf, List.head?_cons, List.isPrefixOf, Bool.and_true]
    exact Bool.beq_comm

theorem isAbsolute_append {a : String} (h : a ≠ "") (b : String) :
    isAbsolute ⟨a ++ b⟩ = isAbsolute ⟨a⟩ := by
  obtain ⟨c, rest, hchars⟩ := List.exists_cons_of_ne_nil fun hnil : a.toList = [] =>
    h (String.toList_inj.mp hnil)
  rw [isAbsolute_eq, isAbsolute_eq, String.toList_append, hchars]
  rfl

theorem isAbsolute_join (p q : Path) : (p.join q).isAbsolute = (p.isAbsolute || q.isAbsolute) := by
  rw [join]
  cases hq : q.isAbsolute with
  | true => rw [Bool.true_or, if_pos rfl, hq, Bool.or_true]
  | false =>
    rw [Bool.false_or, Bool.or_false]
    split
    next hempty =>
      rw [hq, isAbsolute_eq, String.isEmpty_iff.mp hempty]
      rfl
    next hempty =>
      have hne : p.text ≠ "" := fun h => hempty (String.isEmpty_iff.mpr h)
      split
      · exact isAbsolute_append hne q.text
      · rw [String.append_assoc]
        exact isAbsolute_append hne _

/-- The steps of a joined path are those of its parts. -/
theorem steps_join {p q : Path} (h : q.isAbsolute = false) : (p.join q).steps = p.steps ++ q.steps := by
  rw [join, h, Bool.false_or]
  split
  next hempty =>
    have hsteps : p.steps = steps ⟨""⟩ := by rw [← String.isEmpty_iff.mp hempty]
    rw [hsteps, steps_empty, List.nil_append]
  next =>
    split
    next hends =>
      obtain ⟨front, hfront⟩ := List.getLast?_eq_some_iff.mp (of_decide_eq_true hends)
      have htext : p.text = String.ofList front ++ "/" := by
        rw [← String.toList_inj, hfront]
        simp
      have hsteps : p.steps = steps ⟨String.ofList front ++ "/" ++ ""⟩ := by
        rw [String.append_empty, ← htext]
      rw [hsteps, htext, steps_append_slash, steps_append_slash, steps_empty, List.append_nil]
    next => exact steps_append_slash p.text q.text

theorem mem_join {p q : Path} {c : Char} (h : c ∈ (p.join q).text.toList) :
    c ∈ p.text.toList ∨ c = '/' ∨ c ∈ q.text.toList := by
  rw [join] at h
  split at h
  · exact .inr (.inr h)
  · split at h
    · rw [String.toList_append, List.mem_append] at h
      exact h.imp_right .inr
    · rw [String.toList_append, String.toList_append, List.mem_append, List.mem_append] at h
      rcases h with (h | h) | h
      · exact .inl h
      · exact .inr (.inl (List.mem_singleton.mp h))
      · exact .inr (.inr h)

/-! ### Extensions -/

/-- A path is what precedes the slashes at its end, and these slashes. -/
theorem exists_withoutTrailingSlashes (p : Path) :
    ∃ slashes : List Char, (∀ c ∈ slashes, c = '/') ∧
      p = ⟨p.withoutTrailingSlashes.text ++ String.ofList slashes⟩ ∧
      p.withoutTrailingSlashes.text.toList.getLast? ≠ some '/' := by
  refine ⟨(p.text.toList.reverse.takeWhile (· = '/')).reverse, fun c hc => ?_, ?_, ?_⟩
  · exact of_decide_eq_true (List.mem_takeWhile_imp (p := fun c => decide (c = '/')) (List.mem_reverse.mp hc))
  · refine congrArg Path.mk (String.toList_inj.mp ?_)
    rw [withoutTrailingSlashes, String.toList_append, String.toList_ofList, String.toList_ofList,
      ← List.reverse_append, List.takeWhile_append_dropWhile, List.reverse_reverse]
  · rw [withoutTrailingSlashes, String.toList_ofList, List.getLast?_reverse]
    intro hhead
    have hfirst := List.head?_dropWhile_not (fun c => decide (c = '/')) p.text.toList.reverse
    rw [hhead] at hfirst
    exact absurd hfirst (by decide)

/-- Slashes at the end of a path lead nowhere. -/
theorem steps_append_slashes {slashes : List Char} (h : ∀ c ∈ slashes, c = '/') (a : String) :
    steps ⟨a ++ String.ofList slashes⟩ = steps ⟨a⟩ := by
  induction slashes generalizing a with
  | nil => rw [String.ofList_nil, String.append_empty]
  | cons c rest ih =>
    obtain ⟨rfl, hrest⟩ := List.forall_mem_cons.mp h
    have htext : a ++ String.ofList ('/' :: rest) = a ++ "/" ++ "" ++ String.ofList rest := by
      rw [← String.toList_inj]
      simp
    rw [htext, ih hrest, steps_append_slash, steps_empty, List.append_nil]

theorem steps_withoutTrailingSlashes (p : Path) : p.withoutTrailingSlashes.steps = p.steps := by
  obtain ⟨slashes, hslashes, hp, -⟩ := p.exists_withoutTrailingSlashes
  have hsteps := steps_append_slashes hslashes p.withoutTrailingSlashes.text
  rw [← hp] at hsteps
  exact hsteps.symm

theorem isAbsolute_withExtension (p : Path) (extension : String) :
    (p.withExtension extension).isAbsolute = p.isAbsolute := by
  rw [withExtension]
  split
  · rfl
  next hempty =>
    have hne : p.withoutTrailingSlashes.text ≠ "" := fun h => hempty (String.isEmpty_iff.mpr h)
    obtain ⟨slashes, -, hp, -⟩ := p.exists_withoutTrailingSlashes
    have habsolute := isAbsolute_append hne (String.ofList slashes)
    rw [← hp] at habsolute
    rw [String.append_assoc, isAbsolute_append hne, habsolute]

/-- What is appended to a path with a last component belongs to its last step. -/
theorem steps_append_extension {a extension : String} (hne : a ≠ "")
    (hend : a.toList.getLast? ≠ some '/') (hdots : '.' ∉ a.toList) (hslash : '/' ∉ extension.toList) :
    steps ⟨a ++ "." ++ extension⟩ = (steps ⟨a⟩).modifyLast (· ++ "." ++ extension) := by
  obtain ⟨before, last, hlast, hsuffix, hempty, happend⟩ := exists_last a
  have hnonempty : last.toList ≠ [] := fun h => (hempty (String.toList_inj.mp h)).elim hne hend
  obtain ⟨c, hc⟩ := List.exists_mem_of_ne_nil _ hnonempty
  have hdot : c ≠ '.' := by
    rintro rfl
    exact hdots (hsuffix.subset hc)
  -- with or without the extension, the last component holds a character that is no dot
  have hidle : isIdle last = false := isIdle_eq_false hc hdot
  have hidle' : isIdle (last ++ "." ++ extension) = false := isIdle_eq_false (by simp [hc]) hdot
  have hsteps := happend ""
  have hextended := happend ("." ++ extension)
  rw [String.append_empty, String.append_empty, steps_of_not_mem hlast hidle] at hsteps
  rw [← String.append_assoc, ← String.append_assoc, steps_of_not_mem (by simp [hlast, hslash]) hidle'] at hextended
  rw [hsteps, hextended, List.modifyLast_concat]

/-- An extension belongs to the last step, where no component has a dot of its own. -/
theorem steps_withExtension {p : Path} {extension : String} (hdots : '.' ∉ p.text.toList)
    (hslash : '/' ∉ extension.toList) :
    (p.withExtension extension).steps = p.steps.modifyLast (· ++ "." ++ extension) := by
  rw [withExtension]
  have hsteps := p.steps_withoutTrailingSlashes
  split
  next hempty =>
    have hnone : p.withoutTrailingSlashes.steps = steps ⟨""⟩ := by
      rw [← String.isEmpty_iff.mp hempty]
    rw [← hsteps, hnone]
    rfl
  next hempty =>
    obtain ⟨slashes, -, hp, hend⟩ := p.exists_withoutTrailingSlashes
    have hfront : '.' ∉ p.withoutTrailingSlashes.text.toList := by
      rw [hp, String.toList_append, List.mem_append, not_or] at hdots
      exact hdots.1
    rw [← hsteps]
    exact steps_append_extension (fun h => hempty (String.isEmpty_iff.mpr h)) hend hfront hslash

/-! ### Places -/

/-- The place that a path leads to from a working directory, through directories. -/
def destination (working : Place) (p : Path) : Place :=
  p.components.foldl FileTree.move (FileTree.start working p)

/-- Only steps move. -/
theorem foldl_move_filter (components : List String) (here : Place) :
    components.foldl FileTree.move here =
      (components.filter fun component => !isIdle component).foldl FileTree.move here := by
  induction components generalizing here with
  | nil => rfl
  | cons component rest ih =>
    rw [List.foldl_cons, ih, FileTree.move]
    cases hidle : isIdle component with
    | true => rw [if_pos rfl, List.filter_cons_of_neg (by simp [hidle])]
    | false =>
      rw [if_neg Bool.false_ne_true, List.filter_cons_of_pos (by simp [hidle]), List.foldl_cons,
        FileTree.move, hidle, if_neg Bool.false_ne_true]

/-- Steps that do not lead up lead down one after the other. -/
theorem foldl_move_steps {names : List String} (h : ∀ name ∈ names, isIdle name = false ∧ name ≠ "..")
    (here : Place) : names.foldl FileTree.move here = here ++ names := by
  induction names generalizing here with
  | nil => exact (List.append_nil here).symm
  | cons name rest ih =>
    obtain ⟨⟨hidle, hup⟩, hrest⟩ := List.forall_mem_cons.mp h
    rw [List.foldl_cons, ih hrest, FileTree.move, hidle, if_neg Bool.false_ne_true, if_neg hup,
      List.append_assoc]
    rfl

/-- A relative path leads on from where it is joined. -/
theorem destination_join {working : Place} {p q : Path} (h : q.isAbsolute = false) :
    (p.join q).destination working = q.steps.foldl FileTree.move (p.destination working) := by
  have hstart : FileTree.start working (p.join q) = FileTree.start working p := by
    rw [FileTree.start, isAbsolute_join, h, Bool.or_false, FileTree.start]
  rw [destination, foldl_move_filter, hstart, destination, foldl_move_filter p.components]
  show (p.join q).steps.foldl FileTree.move _ = q.steps.foldl FileTree.move (p.steps.foldl FileTree.move _)
  rw [steps_join h, List.foldl_append]

end Path

/-- Where a tree lets a path lead, it leads to its destination. -/
theorem FileTree.place?_eq {t : FileTree} {working place : Place} {p : Path}
    (h : t.place? working p = some place) : place = p.destination working := by
  have hwalk (components : List String) (here : Place) (h : t.walk? here components = some place) :
      place = components.foldl move here := by
    induction components generalizing here with
    | nil => exact (Option.some.inj h).symm
    | cons component rest ih =>
      rw [walk?] at h
      split at h
      · exact ih _ h
      · cases h
  rw [place?] at h
  split at h
  · exact hwalk _ _ h
  · cases h

end Lowering
