import Lowering.Proofs.Output.Levels
import Lowering.Proofs.Output.Loading

/-! What a unit holds.

A unit is made from the name of its module and from the code of the module's classes
(`Module.MadeOf`). It provides the identifier of the module and requires those of what the classes
need and the module does not declare. Its text has a head, which says where the file comes from,
what it provides and what it requires, and behind it the code of the classes, one after the other.
That describes one unit (`MadeOf.unique`), and assembling gives it (`madeOf_of_assemble`), since its
layout never leaves the outermost level (`Layout.Writes`). The code of a class is written line by
line, which leaves it as it is unless it has a carriage return (`body_of_emit`). -/
namespace Lowering

/-- Lines one after the other, each with its end. -/
def Text.unlines (lines : List String) : String := String.join (lines.map (· ++ "\n"))

/-- The code of a class as it stands in a file: its lines, behind an empty one. -/
def ClassOutput.body (out : ClassOutput) : String := Text.unlines ("" :: Text.lines out.text)

namespace Module

/-- The call that hands an identifier to a function of the loader. -/
def callLine (function identifier : String) : String := function ++ "(" ++ Text.quote identifier ++ ");"

variable (m : Module) (t : SymbolTable) (o : Options)

/-- The comment that says where the file comes from and what it is. -/
def overviewLines : List String :=
  ["/**",
    match m.source with
    | some source => " * Generated by Kestrel from " ++ source
    | none => " * Generated by Kestrel",
    if m.name.text = "" then " *" else " * " ++ m.name.text,
    " *",
    " * @fileoverview",
    " *",
    " * @suppress \x7bcheckTypes|accessControls\x7d",
    " */",
    ""]

/-- The lines in front of the code of the classes. -/
def headLines (provide : String) (requires : List String) : List String :=
  (if o.fileOverview then m.overviewLines else []) ++ [callLine o.provideFn provide, ""] ++
    if requires = [] then [] else requires.map (callLine o.requireFn) ++ [""]

/-- The unit is that of a module whose classes have the given code, in their order. -/
structure MadeOf (outputs : List ClassOutput) (u : LoadUnit) : Prop where
  module : u.module = m.name
  provide : u.provide = t.spelling m.name
  requires : ∃ names : List Name, names.Pairwise (· < ·) ∧ u.requires = names.map t.spelling ∧
    ∀ n, n ∈ names ↔
      (∃ out ∈ outputs, n ∈ out.dependencies) ∧ (∀ c ∈ m.classes, c.name ≠ n) ∧ m.name ≠ n
  path : u.path = m.name.outputPath
  text : u.text = Text.unlines (m.headLines o u.provide u.requires) ++ String.join (outputs.map (·.body))

end Module

/-! ### Texts of lines -/

namespace Text

theorem unlines_append (a b : List String) : unlines (a ++ b) = unlines a ++ unlines b := by
  rw [unlines, List.map_append, String.join_append]
  rfl

theorem unlines_flatMap {α : Type} (items : List α) (lines : α → List String) :
    unlines (items.flatMap lines) = String.join (items.map fun a => unlines (lines a)) := by
  induction items with
  | nil => rfl
  | cons a rest ih => rw [List.flatMap_cons, unlines_append, ih, List.map_cons, String.join_cons]

theorem dropReturn_of_not_mem {line : List Char} (h : '\r' ∉ line) : dropReturn line = line := by
  unfold dropReturn
  exact if_neg fun hlast => h (List.mem_of_getLast? hlast)

/-- The lines of a text that ends with a line feed are all of it, if it has no carriage return. -/
theorem flatMap_linesFrom (present : List Char) {cs : List Char} (hpresent : '\r' ∉ present) (hcs : '\r' ∉ cs) :
    (linesFrom present (cs ++ ['\n'])).flatMap (· ++ ['\n']) = present.reverse ++ cs ++ ['\n'] := by
  have hline : dropReturn present.reverse = present.reverse :=
    dropReturn_of_not_mem (mt List.mem_reverse.mp hpresent)
  induction cs generalizing present with
  | nil => simp [linesFrom, hline]
  | cons c rest ih =>
    obtain ⟨hc, hrest⟩ := not_or.mp (mt List.mem_cons.mpr hcs)
    rw [List.cons_append, linesFrom]
    split
    next hbreak =>
      rw [List.flatMap_cons, ih [] List.not_mem_nil hrest rfl, hline, hbreak]
      simp
    next =>
      have hlonger : '\r' ∉ c :: present := mt List.mem_cons.mp (not_or.mpr ⟨hc, hpresent⟩)
      rw [ih _ hlonger hrest (dropReturn_of_not_mem (mt List.mem_reverse.mp hlonger))]
      simp

theorem unlines_lines {front : String} (h : '\r' ∉ (front ++ "\n").toList) :
    unlines (lines (front ++ "\n")) = front ++ "\n" := by
  have hfront : '\r' ∉ front.toList := fun hmem =>
    h (String.toList_append ▸ List.mem_append_left _ hmem)
  have hchars := flatMap_linesFrom [] List.not_mem_nil hfront
  rw [← String.toList_inj, unlines, lines, String.toList_join, String.toList_append]
  simpa [List.flatMap_map] using hchars

end Text

/-! ### Layouts of lines -/

namespace Code

variable (spelling : Name → String)

theorem text_cons (p : Piece) (c : Code) : text spelling (p :: c) = p.text spelling ++ c.text spelling := by
  rw [text, List.map_cons, String.join_cons]
  rfl

theorem text_ofText (s : String) : text spelling (ofText s) = s := by
  unfold ofText
  split
  next hempty =>
    rw [String.isEmpty_iff.mp hempty]
    rfl
  next =>
    rw [text_cons]
    exact String.append_empty

end Code

namespace Layout

variable {spelling : Name → String}

/-- At the outermost level the layout writes the lines and does not leave that level. -/
structure Writes (spelling : Name → String) (l : Layout) (lines : List String) : Prop where
  text : l.text spelling 0 = Text.unlines lines
  depth : l.depthAfter 0 = 0

theorem writes_nil : Writes spelling [] [] := ⟨rfl, rfl⟩

theorem Writes.append {l l' : Layout} {a b : List String} (h : Writes spelling l a) (h' : Writes spelling l' b) :
    Writes spelling (l ++ l') (a ++ b) where
  text := by rw [text_append, h.depth, h.text, h'.text, Text.unlines_append]
  depth := by rw [depthAfter_append, h.depth, h'.depth]

theorem Writes.flatMap {α : Type} {items : List α} {layout : α → Layout} {lines : α → List String}
    (h : ∀ a, Writes spelling (layout a) (lines a)) :
    Writes spelling (items.flatMap layout) (items.flatMap lines) := by
  induction items with
  | nil => exact writes_nil
  | cons a rest ih => exact (h a).append ih

/-- A line is its code, also if that is empty. -/
theorem writes_line {c : Code} {s : String} (h : c.text spelling = s) : Writes spelling (line c) [s] where
  text := by
    show String.join [LayoutStep.text spelling 0 (.line c)] = String.join [s ++ "\n"]
    rw [LayoutStep.text, h]
    split
    next hempty =>
      rw [String.isEmpty_iff.mp hempty]
      rfl
    next =>
      show String.join ["" ++ s ++ "\n"] = _
      rw [String.empty_append]
  depth := rfl

theorem writes_say (s : String) : Writes spelling (say s) [s] := writes_line (Code.text_ofText spelling s)

theorem writes_gap : Writes spelling (gap 1) [""] := ⟨rfl, rfl⟩

theorem writes_lines (s : String) : Writes spelling (lines s) (Text.lines s) := by
  have h : Writes spelling (lines s) ((Text.lines s).flatMap ([·])) := .flatMap writes_say
  rwa [List.flatMap_singleton'] at h

theorem writes_emptyTag : Writes spelling (tagLine []) [" *"] := writes_line rfl

theorem writes_tag {s : String} (h : s ≠ "") : Writes spelling (tagLine (plainTag s)) [" * " ++ s] := by
  have hcode : plainTag s = [.verbatim s] := if_neg (by simpa using h)
  rw [hcode]
  exact writes_line (by simp [Code.text, Piece.text])

theorem writes_doc {tags : List Code} {lines : List String}
    (h : List.Forall₂ (fun tag line => Writes spelling (tagLine tag) [line]) tags lines) :
    Writes spelling (doc tags) (["/**"] ++ lines ++ [" */"]) := by
  have htags : Writes spelling (tags.flatMap tagLine) lines := by
    induction h with
    | nil => exact writes_nil
    | cons htag _ ih => exact htag.append ih
  exact ((writes_say "/**").append htags).append (writes_say " */")

end Layout

namespace Module

open Layout

variable {m : Module} {t : SymbolTable} {o : Options}

theorem writes_overview {spelling : Name → String} : m.overview.Writes spelling m.overviewLines := by
  have hname : Writes spelling (tagLine (plainTag m.name.text))
      [if m.name.text = "" then " *" else " * " ++ m.name.text] := by
    split
    next hempty =>
      rw [hempty]
      exact writes_emptyTag
    next hnonempty => exact writes_tag hnonempty
  have htags : List.Forall₂ (fun tag line => Writes spelling (tagLine tag) [line])
      [plainTag m.name.text, [], plainTag "@fileoverview", [], plainTag "@suppress \x7bcheckTypes|accessControls\x7d"]
      [if m.name.text = "" then " *" else " * " ++ m.name.text, " *", " * @fileoverview", " *",
        " * @suppress \x7bcheckTypes|accessControls\x7d"] :=
    .cons hname (.cons writes_emptyTag (.cons (writes_tag (by decide)) (.cons writes_emptyTag
      (.cons (writes_tag (by decide)) .nil))))
  unfold overview overviewLines
  cases m.source with
  | none => exact (writes_doc (.cons (writes_tag (by decide)) htags)).append writes_gap
  | some source =>
    have horigin : Writes spelling (tagLine (plainTag ("Generated by Kestrel from " ++ source)))
        [" * " ++ ("Generated by Kestrel from " ++ source)] := writes_tag (by simp)
    rw [← String.append_assoc] at horigin
    exact (writes_doc (.cons horigin htags)).append writes_gap

theorem writes_loaderCall (function : String) (n : Name) :
    (loaderCall function n).Writes t.spelling [callLine function (t.spelling n)] :=
  writes_line (by simp [Code.text, Piece.text, callLine, String.append_assoc])

theorem writes_requireCalls (names : List Name) : (requireCalls o names).Writes t.spelling
    (if names.map t.spelling = [] then [] else (names.map t.spelling).map (callLine o.requireFn) ++ [""]) := by
  have hcalls : Writes t.spelling (names.flatMap (loaderCall o.requireFn))
      (names.flatMap fun n => [callLine o.requireFn (t.spelling n)]) := .flatMap (writes_loaderCall o.requireFn)
  rw [← List.map_eq_flatMap, ← Function.comp_def (callLine o.requireFn) t.spelling, ← List.map_map] at hcalls
  unfold requireCalls
  cases names with
  | nil => exact writes_nil
  | cons n rest => exact hcalls.append writes_gap

theorem writes_unitLayout (outputs : List ClassOutput) : (m.unitLayout o outputs).Writes t.spelling
    (m.headLines o (t.spelling m.name) ((m.required outputs).names.map t.spelling) ++
      outputs.flatMap fun out => "" :: Text.lines out.text) := by
  have hoverview : Writes t.spelling (if o.fileOverview then m.overview else [])
      (if o.fileOverview then m.overviewLines else []) := by
    split
    · exact writes_overview
    · exact writes_nil
  have hbodies : Writes t.spelling (outputs.flatMap fun out => gap 1 ++ lines out.text)
      (outputs.flatMap fun out => "" :: Text.lines out.text) :=
    .flatMap fun out => writes_gap.append (writes_lines out.text)
  have h := (((hoverview.append (writes_loaderCall o.provideFn m.name)).append writes_gap).append
    (writes_requireCalls (o := o) (m.required outputs).names)).append hbodies
  unfold unitLayout headLines
  simpa [List.append_assoc] using h

/-- What assembling gives is made of the code that it was given. -/
theorem madeOf_of_assemble {outputs : List ClassOutput} {u : LoadUnit} (h : m.assemble t o outputs = .ok u) :
    m.MadeOf t o outputs u where
  module := (assemble_eq_ok h).1
  provide := (assemble_eq_ok h).2.1
  requires := by
    obtain ⟨-, -, -, hrequires⟩ := assemble_eq_ok h
    refine ⟨(m.required outputs).names, (m.required outputs).ascending, hrequires, fun n => ?_⟩
    exact mem_required.trans (and_congr_right' not_mem_owned)
  path := (assemble_eq_ok h).2.2.1
  text := by
    unfold assemble at h
    split at h
    · cases h
    split at h
    · cases h
    obtain rfl := Except.ok.inj h
    dsimp only
    rw [(writes_unitLayout outputs).text, Text.unlines_append, Text.unlines_flatMap]
    rfl

/-- No two units are made of the same code. -/
theorem MadeOf.unique {outputs : List ClassOutput} {u v : LoadUnit} (h : m.MadeOf t o outputs u)
    (h' : m.MadeOf t o outputs v) : u = v := by
  obtain ⟨names, hascending, hrequires, hmem⟩ := h.requires
  obtain ⟨names', hascending', hrequires', hmem'⟩ := h'.requires
  have hsets : (⟨names, hascending⟩ : NameSet) = ⟨names', hascending'⟩ :=
    NameSet.ext fun n => (hmem n).trans (hmem' n).symm
  have hnames : names = names' := congrArg NameSet.names hsets
  have hlists : u.requires = v.requires := by rw [hrequires, hrequires', hnames]
  have htexts : u.text = v.text := by rw [h.text, h'.text, h.provide, h'.provide, hlists]
  have hmodule : u.module = v.module := h.module.trans h'.module.symm
  have hprovide : u.provide = v.provide := h.provide.trans h'.provide.symm
  have hpath : u.path = v.path := h.path.trans h'.path.symm
  cases u
  cases v
  rw [LoadUnit.mk.injEq]
  exact ⟨hmodule, hprovide, hlists, hpath, htexts⟩

/-- The unit that assembling gives is the one that is made of the given code. -/
theorem madeOf_iff_of_assemble {outputs : List ClassOutput} {u : LoadUnit} (h : m.assemble t o outputs = .ok u)
    (v : LoadUnit) : m.MadeOf t o outputs v ↔ v = u := by
  constructor
  · intro hv
    exact hv.unique (madeOf_of_assemble h)
  · rintro rfl
    exact madeOf_of_assemble h

end Module

/-! ### Code of classes -/

/-- At any level a line ends with a line feed. -/
theorem Layout.text_line_eq (spelling : Name → String) (depth : Nat) (c : Code) :
    ∃ front, text spelling depth (line c) = front ++ "\n" := by
  show ∃ front, String.join [LayoutStep.text spelling depth (.line c)] = front ++ "\n"
  rw [String.join_cons, String.join_nil, String.append_empty, LayoutStep.text]
  split
  · exact ⟨"", rfl⟩
  · exact ⟨_, rfl⟩

/-- The text of a class ends with a line feed. -/
theorem ClassPlan.text_layout_eq (p : ClassPlan) (spelling : Name → String) :
    ∃ front, p.layout.text spelling 0 = front ++ "\n" := by
  obtain ⟨front, hfront⟩ := p.text_layout spelling
  obtain ⟨l, c, hlast⟩ : ∃ l c, p.reflectionLayout = l ++ Layout.line c := by
    unfold reflectionLayout Reflection.layout
    rw [← List.append_assoc]
    exact ⟨_, _, rfl⟩
  obtain ⟨line, hline⟩ := Layout.text_line_eq spelling (Layout.depthAfter 0 l) c
  refine ⟨front ++ (l.text spelling 0 ++ line), ?_⟩
  rw [hfront, hlast, Layout.text_append, hline, String.append_assoc, String.append_assoc]

/-- The code of a class stands in a file as it is, unless it has a carriage return. -/
theorem ClassDecl.body_of_emit {c : ClassDecl} {t : SymbolTable} {o : Options} {out : ClassOutput}
    (h : c.emit t o = .ok out) (hreturn : '\r' ∉ out.text.toList) : out.body = "\n" ++ out.text := by
  obtain ⟨p, -, -, rfl⟩ := emit_eq_ok.mp h
  obtain ⟨front, hfront⟩ := p.text_layout_eq t.spelling
  have hlines : Text.unlines (Text.lines (p.layout.text t.spelling 0)) = p.layout.text t.spelling 0 := by
    rw [hfront] at hreturn ⊢
    exact Text.unlines_lines hreturn
  show Text.unlines ([""] ++ Text.lines (p.layout.text t.spelling 0)) = _
  rw [Text.unlines_append, hlines]
  rfl

end Lowering
