import Lowering.Proofs.Code.Spelling
import Lowering.Proofs.Output.Written
import Lowering.Proofs.Symbol.Agreement

/-! Dependencies and the identifiers in emitted code.

The dependencies of a class are right when its code needs nothing else and each of them.
Both are said about tables that differ in identifiers. No other identifier than those of
the class, of its dependencies and of the types in its signatures has any part in the
text (`emit_eq_of_agrees`). Conversely, giving a dependency another identifier shows in
the text outside of signatures exactly when it is a dependency of the written part
(`dependencies_written_iff`). -/
namespace Lowering

/-! ### Emitting with another table -/

namespace ClassDecl

variable {c : ClassDecl} {t t' : SymbolTable} {o : Options} {kept : Name → Prop} {out : ClassOutput}

/-- Tables that agree on the class lead to one plan. -/
theorem plan_congr (h : t.AgreesOn t' kept) (hself : kept c.name) : c.plan t' o = c.plan t o := by
  have hdependencies : c.dependencies t' o = c.dependencies t o := by
    unfold dependencies
    rw [h.contains]
  have hresolve : t'.resolve c.name c.name = t.resolve c.name c.name := by
    unfold SymbolTable.resolve
    rw [h.find? hself]
  unfold plan
  rw [hdependencies, hresolve]

theorem emit_eq_ok :
    c.emit t o = .ok out ↔
      ∃ p, c.plan t o = .ok p ∧ t.checkReferences c.name p.layout.references = .ok () ∧
        out = ⟨p, p.symbol.outputName, p.layout.text t.spelling 0⟩ := by
  constructor
  · intro h
    obtain ⟨p, hp, h⟩ := bind_eq_ok.mp h
    obtain ⟨text, htext, h⟩ := bind_eq_ok.mp h
    obtain ⟨_, hcheck, htext⟩ := bind_eq_ok.mp htext
    obtain rfl := Except.ok.inj htext
    obtain rfl := Except.ok.inj h
    exact ⟨p, hp, hcheck, rfl⟩
  · intro hright
    obtain ⟨p, hp, hcheck, rfl⟩ := hright
    exact bind_eq_ok.mpr ⟨p, hp, bind_eq_ok.mpr ⟨_, bind_eq_ok.mpr ⟨(), hcheck, rfl⟩, rfl⟩⟩

/-- With a table that agrees on the class, no more than the text changes. -/
theorem emit_of_agrees (h : t.AgreesOn t' kept) (hself : kept c.name) (hout : c.emit t o = .ok out) :
    c.emit t' o = .ok { out with text := out.plan.layout.text t'.spelling 0 } := by
  obtain ⟨p, hp, hcheck, rfl⟩ := emit_eq_ok.mp hout
  refine emit_eq_ok.mpr ⟨p, (plan_congr h hself).trans hp, ?_, rfl⟩
  unfold SymbolTable.checkReferences at hcheck ⊢
  rw [h.contains]
  exact hcheck

/-! ### Nothing else is needed -/

/-- The names whose identifiers the code of a class may use: its own, those of its
dependencies, and those of the types in the signatures of its methods. -/
def Uses (c : ClassDecl) (t : SymbolTable) (o : Options) (n : Name) : Prop :=
  n = c.name ∨ (∃ needed, c.dependencies t o = .ok needed ∧ n ∈ needed) ∨ n ∈ c.signatureNames

variable {p : ClassPlan}

/-- A registered name that the code uses outside of signatures is a dependency. -/
theorem Planned.mem_dependencies (h : c.Planned t o p) (hc : t.Registers c) {n : Name} (hn : n ≠ c.name)
    (hregistered : t.contains n = true) {use : NameUse} (huse : use ≠ .signature)
    (hx : .name use n ∈ p.layout.uses) : n ∈ p.dependencies := by
  obtain ⟨-, hmem⟩ := dependencies_eq_ok.mp h.dependencies
  refine (hmem n).mpr ⟨hn, ?_⟩
  rcases (h.uses_iff hc hn).mp ⟨use, huse, hx⟩ with hmention | hsupport
  · exact .inl (c.mentions_written_subset hmention)
  · exact .inr ⟨c.supportNames_written_subset o hsupport, hregistered⟩

/-- What the code uses and is registered is among the names that it may use. -/
theorem Planned.uses_of_mem_names (h : c.Planned t o p) (hc : t.Registers c) {n : Name}
    (hregistered : t.contains n = true) (hn : n ∈ p.layout.names) : c.Uses t o n := by
  by_cases hself : n = c.name
  · exact .inl hself
  rcases Layout.mem_names.mp hn with ⟨use, hx⟩ | hquoted
  · by_cases huse : use = .signature
    · subst huse
      exact .inr (.inr (h.mem_signatureNames_of_uses hc hx))
    · exact .inr (.inl ⟨_, h.dependencies, h.mem_dependencies hc hself hregistered huse hx⟩)
  · exact absurd hquoted (h.not_quoted hc hself)

/-- Tables that agree on what the class may use give its code one text. -/
theorem Planned.text_eq (h : c.Planned t o p) (hc : t.Registers c) (hagree : t.AgreesOn t' (c.Uses t o)) :
    p.layout.text t'.spelling 0 = p.layout.text t.spelling 0 := by
  have hspelling {n : Name} (hn : n ∈ p.layout.names) : t'.spelling n = t.spelling n :=
    hagree.spelling fun hregistered => h.uses_of_mem_names hc hregistered hn
  refine Layout.text_congr (fun x hx => ?_) 0
  cases x with
  | verbatim text => rfl
  | name use n => exact hspelling (Layout.mem_names.mpr (.inl ⟨use, hx⟩))
  | quoted n => exact congrArg Text.quote (hspelling (Layout.mem_names.mpr (.inr hx)))

end ClassDecl

/-- The names that are used outside of the signatures of methods. -/
def ClassOutput.names (out : ClassOutput) : List Name := out.plan.layout.unsigned.names

/-- In string literals, or for something else than a signature. -/
theorem ClassOutput.mem_names {out : ClassOutput} {n : Name} :
    n ∈ out.names ↔
      (∃ use, use ≠ .signature ∧ .name use n ∈ out.plan.layout.uses) ∨
        .quoted n ∈ out.plan.layout.uses := by
  rw [names, Layout.mem_names, Layout.uses_unsigned]
  simp only [List.mem_filter]
  refine or_congr (exists_congr fun use => ?_) ?_
  · cases use <;> simp [Piece.isSignature]
  · simp [Piece.isSignature]

/-- **A class is emitted alike with all tables that agree on the class itself, on its
dependencies and on the types in its signatures; so whatever registered class its code uses
outside of signatures is a dependency.** -/
theorem emit_eq_of_agrees (c : ClassDecl) (o : Options) (t t' : SymbolTable) (hc : t.Registers c)
    (h : t.AgreesOn t' (c.Uses t o)) :
    c.emit t' o = c.emit t o ∧
      ∀ out, c.emit t o = .ok out → ∀ n ∈ out.names, t.contains n = true →
        n = c.name ∨ n ∈ out.dependencies := by
  have hplan := ClassDecl.plan_congr (o := o) h (.inl rfl)
  constructor
  · unfold ClassDecl.emit
    rw [hplan]
    cases hp : c.plan t o with
    | error e => rfl
    | ok p =>
      have hwrite : t'.writeLayout c.name p.layout = t.writeLayout c.name p.layout := by
        unfold SymbolTable.writeLayout SymbolTable.checkReferences
        rw [h.contains, (ClassDecl.plan_eq_ok hp).text_eq hc h]
      show t'.writeLayout c.name p.layout >>= _ = t.writeLayout c.name p.layout >>= _
      rw [hwrite]
  · intro out hout n hn hregistered
    obtain ⟨p, hp, -, rfl⟩ := ClassDecl.emit_eq_ok.mp hout
    have hplanned := ClassDecl.plan_eq_ok hp
    by_cases hself : n = c.name
    · exact .inl hself
    rcases ClassOutput.mem_names.mp hn with ⟨use, huse, hx⟩ | hquoted
    · exact .inr (hplanned.mem_dependencies hc hself hregistered huse hx)
    · exact absurd hquoted (hplanned.not_quoted hc hself)

/-- A caption with a base, a field, a bindable accessor and a method that takes a panel and
casts it. -/
def caption : ClassDecl where
  name := ⟨"app.Caption"⟩
  base := some ⟨"ui.Label"⟩
  fields := [{ name := "form", type := .declared ⟨"app.Form"⟩ }]
  accessors := [{ name := "text", type := .ofText "String", bindable := true }]
  methods := [{
    name := "attach", params := [⟨"panel", .declared ⟨"ui.Panel"⟩⟩]
    body := [.expr (.cast (.ident "panel") (.declared ⟨"app.Form"⟩))] }]

/-- The caption with the classes around it and one that it has nothing to do with. -/
def captionDeclarations : List Declaration :=
  [{ name := ⟨"ui.Label"⟩ }, { name := ⟨"app.Form"⟩ }, { name := ⟨"ui.Panel"⟩ },
    { name := ⟨"ui.Slider"⟩ }, { name := ({} : Options).changeEventClass },
    { name := ({} : Options).languageHelper }, .ofClass caption]

/-- The caption does not change with the identifier of the slider. -/
theorem caption_emit_eq :
    ∃ t, (Registry.empty.registerAll captionDeclarations).1.freeze .dotted = .ok t ∧
      t.Registers caption ∧ t.contains ⟨"ui.Slider"⟩ = true ∧
      caption.emit (t.rename ⟨"ui.Slider"⟩ "S") {} = caption.emit t {} := by
  refine ⟨_, rfl, ⟨_, rfl, ?_⟩, ?_, (emit_eq_of_agrees caption {} _ _ ⟨_, rfl, ?_⟩ ?_).1⟩
  · decide +kernel
  · decide +kernel
  · decide +kernel
  · refine (SymbolTable.rename_agrees _ _ _).mono ?_
    have hmentions : ⟨"ui.Slider"⟩ ∉ caption.mentions.map (·.name) := by decide
    have hsupport : ⟨"ui.Slider"⟩ ∉ caption.supportNames {} := by decide
    have hsigned : ⟨"ui.Slider"⟩ ∉ caption.signatureNames := by decide
    intro n hn hslider
    subst hslider
    rcases hn with hself | ⟨needed, hneeded, hn⟩ | hn
    · revert hself
      decide
    · obtain ⟨-, hmention | ⟨hsupported, -⟩⟩ := ((ClassDecl.dependencies_eq_ok.mp hneeded).2 _).mp hn
      · exact hmentions hmention
      · exact hsupport hsupported
    · exact hsigned hn

/-! ### Each dependency is needed -/

/-- The text of a class without the types in the signatures of its methods. -/
def ClassOutput.unsignedText (out : ClassOutput) (t : SymbolTable) : String :=
  out.plan.layout.unsigned.text t.spelling 0

/-- Whatever other identifier the name is given, it shows in the text outside of signatures. -/
def ClassDecl.ShowsName (c : ClassDecl) (t : SymbolTable) (o : Options) (out : ClassOutput)
    (n : Name) : Prop :=
  ∀ identifier, t.outputName? n ≠ some identifier →
    ∃ out', c.emit (t.rename n identifier) o = .ok out' ∧
      out'.unsignedText (t.rename n identifier) ≠ out.unsignedText t

namespace ClassDecl

variable {c : ClassDecl} {t : SymbolTable} {o : Options} {p : ClassPlan} {out : ClassOutput} {n : Name}

/-- A registered name that is used outside of signatures and string literals shows there. -/
theorem showsName_of_uses (hout : c.emit t o = .ok out) (hn : n ≠ c.name)
    (hregistered : t.contains n = true) {use : NameUse} (huse : use ≠ .signature)
    (hx : .name use n ∈ out.plan.layout.uses) (hquoted : .quoted n ∉ out.plan.layout.uses) :
    c.ShowsName t o out n := by
  intro identifier hne
  have hagree := t.rename_agrees n identifier
  refine ⟨_, emit_of_agrees hagree (Ne.symm hn) hout, ?_⟩
  have hothers : ∀ m, m ≠ n → (t.rename n identifier).spelling m = t.spelling m :=
    fun m hm => hagree.spelling fun _ => hm
  have hdiffers : (t.rename n identifier).spelling n ≠ t.spelling n := by
    rw [SymbolTable.spelling_rename hregistered, SymbolTable.spelling]
    obtain ⟨s, hs⟩ := Option.isSome_iff_exists.mp hregistered
    rw [SymbolTable.outputName?, hs, Option.map_some] at hne ⊢
    exact fun heq => hne (congrArg some heq.symm)
  have hunsigned : .name use n ∈ out.plan.layout.unsigned.uses := by
    rw [Layout.uses_unsigned]
    exact List.mem_filter.mpr ⟨hx, by cases use <;> simp_all [Piece.isSignature]⟩
  refine Layout.text_ne hothers hdiffers hunsigned ?_ 0
  rw [Layout.uses_unsigned]
  exact fun hmem => hquoted (List.mem_filter.mp hmem).1

/-- A registered name is used outside of signatures when the written part needs it. -/
theorem Planned.uses_iff_needs (h : c.Planned t o p) (hc : t.Registers c) (hn : n ≠ c.name)
    (hregistered : t.contains n = true) :
    (∃ use, use ≠ .signature ∧ .name use n ∈ p.layout.uses) ↔ c.written.Needs t o n := by
  rw [h.uses_iff hc hn, Needs, name_written]
  simp only [hn, hregistered, ne_eq, not_false_eq_true, true_and, and_true]

end ClassDecl

/-- **Each dependency is used, and shows in the text outside of signatures, exactly when the
written part of the declaration has the same dependencies. So it is for every class whose tree
loses no node by being settled, and for the interfaces that depend on nothing but interfaces that
they extend.** -/
theorem dependencies_written_iff (c : ClassDecl) (o : Options) (t : SymbolTable) (out : ClassOutput)
    (hc : t.Registers c) (h : c.emit t o = .ok out) :
    ((∀ n ∈ out.dependencies, n ∈ out.names ∧ c.ShowsName t o out n) ↔
        c.written.dependencies t o = .ok out.dependencies) ∧
      (c.kind = .concrete →
        (∀ tree, c.tree = some tree → ∀ k ∈ tree.dropped, (tree.get? k).isSome → tree.settled.LeadsTo tree.root k) →
          c.written.dependencies t o = .ok out.dependencies) ∧
      (c.kind = .interface → (c.written.dependencies t o = .ok out.dependencies ↔
        ∀ n ∈ out.dependencies, n ∈ c.interfaces)) := by
  obtain ⟨p, hp, -, rfl⟩ := ClassDecl.emit_eq_ok.mp h
  have hplanned := ClassDecl.plan_eq_ok hp
  obtain ⟨-, hmem⟩ := ClassDecl.dependencies_eq_ok.mp hplanned.dependencies
  refine ⟨?_, hplanned.written_dependencies_eq, hplanned.interface_dependencies_iff⟩
  refine Iff.trans (forall₂_congr fun n hn => ?_) hplanned.written_dependencies_eq_iff.symm
  have hne := ((hmem n).mp hn).1
  have hregistered := ClassDecl.contains_of_mem_dependencies hplanned.dependencies hn
  have hquoted := hplanned.not_quoted hc hne
  refine Iff.trans ⟨?_, ?_⟩ (hplanned.uses_iff_needs hc hne hregistered)
  · intro hshown
    exact (ClassOutput.mem_names.mp hshown.1).resolve_right hquoted
  · intro hused
    obtain ⟨use, huse, hx⟩ := hused
    exact ⟨ClassOutput.mem_names.mpr (.inl ⟨use, huse, hx⟩),
      ClassDecl.showsName_of_uses h hne hregistered huse hx hquoted⟩

/-- The caption is a class without a tree: its base, the type of its field and both support classes
show. -/
theorem caption_dependencies_shown :
    ∃ t out, (Registry.empty.registerAll captionDeclarations).1.freeze .dotted = .ok t ∧
      t.Registers caption ∧ caption.emit t {} = .ok out ∧
      out.dependencies.names = [⟨"app.Form"⟩, ({} : Options).changeEventClass,
        ({} : Options).languageHelper, ⟨"ui.Label"⟩] ∧
      ∀ n ∈ out.dependencies, n ∈ out.names ∧ caption.ShowsName t {} out n := by
  obtain ⟨t, ht⟩ : ∃ t, (Registry.empty.registerAll captionDeclarations).1.freeze .dotted = .ok t := ⟨_, rfl⟩
  have hregisters : t.Registers caption := by
    obtain rfl := Except.ok.inj ht
    exact ⟨_, rfl, by decide +kernel⟩
  obtain ⟨out, hout, hneeded⟩ : ∃ out, caption.emit t {} = .ok out ∧
      out.dependencies.names = [⟨"app.Form"⟩, ({} : Options).changeEventClass,
        ({} : Options).languageHelper, ⟨"ui.Label"⟩] := by
    obtain rfl := Except.ok.inj ht
    exact ⟨_, rfl, rfl⟩
  obtain ⟨hshown, hclass, -⟩ := dependencies_written_iff caption {} t out hregisters hout
  exact ⟨t, out, ht, hregisters, hout, hneeded, hshown.mpr (hclass rfl nofun)⟩

/-- An interface with an accessor of a class type, which reflection leaves out. -/
def service : ClassDecl where
  name := ⟨"api.IService"⟩
  kind := .interface
  accessors := [{ name := "item", type := .declared ⟨"api.Item"⟩ }]
  flags := { reflectable := false }

/-- The type of the accessor is a dependency that the code of the interface does not use. -/
theorem service_item_unused :
    ∃ t out, (Registry.empty.registerAll
        [{ name := ⟨"api.Item"⟩ }, .ofClass service]).1.freeze .dotted = .ok t ∧
      t.Registers service ∧ service.emit t {} = .ok out ∧ ⟨"api.Item"⟩ ∈ out.dependencies ∧
      ⟨"api.Item"⟩ ∉ out.names ∧
      ¬∀ n ∈ out.dependencies, n ∈ out.names ∧ service.ShowsName t {} out n := by
  refine ⟨_, _, rfl, ⟨_, rfl, ?_⟩, rfl, ?_, ?_, fun hall => ?_⟩
  · decide +kernel
  · decide +kernel
  · decide +kernel
  · exact absurd (hall ⟨"api.Item"⟩ (by decide +kernel)).1 (by decide +kernel)

end Lowering
