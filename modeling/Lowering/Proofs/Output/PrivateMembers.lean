import Lowering.Proofs.Output.Collisions
import Lowering.Proofs.Output.Requirements

/-! The names of private members.

Where private members are mangled, the fields and methods of a class and what its accessors are
kept in have two parts in their names, the class and the member. The getter and the setter of an
accessor are never mangled, but their names have two parts as well. Equal names have equal parts,
unless a part goes on where that of the other name ends (`Joined.text_eq_iff`). So two classes share
the getters and setters of the private properties that both declare, and no other names of private
members as long as their names do not run into each other (`private_members_shared`). -/
namespace Lowering

/-! ### Joined names -/

/-- The longer text goes on with an underscore where the other one ends, if it is longer at all. -/
def Continues (x y : String) : Prop := y = x ∨ ∃ more, y = x ++ "_" ++ more

/-- Nothing but itself is continued by the front of an accessor. -/
theorem Continues.of_accessor {front x : String} (hfront : front ∈ ["get", "set"])
    (h : Continues x front ∨ Continues front x) : Continues front x := by
  rcases h with (rfl | ⟨more, rfl⟩) | h
  · exact .inl rfl
  · have hplain : ∀ front ∈ ["get", "set"], '_' ∉ front.toList := by decide
    exact absurd (by simp) (hplain _ hfront)
  · exact h

/-- The two parts of a name around an underscore. -/
@[ext]
structure Joined where
  front : String
  back : String
deriving DecidableEq, Repr

namespace Joined

variable {a b : Joined}

def text (a : Joined) : String := a.front ++ "_" ++ a.back

/-- The front of `b` goes on after that of `a`, and the back of `a` begins with what is more. -/
def Runs (a b : Joined) : Prop :=
  ∃ middle, b.front = a.front ++ "_" ++ middle ∧ a.back = middle ++ "_" ++ b.back

/-- The parts are the same, or divided at another underscore. -/
def Meets (a b : Joined) : Prop := a = b ∨ a.Runs b ∨ b.Runs a

theorem Runs.text_eq (h : a.Runs b) : a.text = b.text := by
  obtain ⟨middle, hfront, hback⟩ := h
  rw [text, text, hfront, hback]
  simp only [String.append_assoc]

/-- What one name has more in front of its underscore ends with an underscore. -/
theorem eq_or_runs {more : List Char}
    (hfront : b.front.toList ++ ['_'] = a.front.toList ++ ['_'] ++ more)
    (hback : a.back.toList = more ++ b.back.toList) : a = b ∨ a.Runs b := by
  rcases List.eq_nil_or_concat more with rfl | ⟨middle, last, rfl⟩
  · rw [List.append_nil] at hfront
    obtain ⟨hfronts, -⟩ := List.append_inj' hfront rfl
    exact .inl (Joined.ext (String.toList_inj.mp hfronts.symm) (String.toList_inj.mp hback))
  · rw [List.concat_eq_append] at hfront
    obtain ⟨hfronts, hlast⟩ := List.append_inj' (hfront.trans (List.append_assoc ..).symm) rfl
    obtain rfl := List.singleton_inj.mp hlast
    refine .inr ⟨String.ofList middle, String.toList_inj.mp ?_, String.toList_inj.mp ?_⟩
    · simpa using hfronts
    · simpa using hback

/-- Names are equal when their parts meet. -/
theorem text_eq_iff : a.text = b.text ↔ a.Meets b := by
  constructor
  · intro h
    have hlists := congrArg String.toList h
    simp only [text, String.toList_append] at hlists
    rcases List.append_eq_append_iff.mp hlists with ⟨more, hfront, hback⟩ | ⟨more, hfront, hback⟩
    · exact (eq_or_runs hfront hback).elim .inl fun h => .inr (.inl h)
    · exact (eq_or_runs hfront hback).elim (fun h => .inl h.symm) fun h => .inr (.inr h)
  · rintro (rfl | h | h)
    · rfl
    · exact h.text_eq
    · exact h.text_eq.symm

instance : Decidable (a.Meets b) := decidable_of_iff _ text_eq_iff

theorem Meets.symm (h : a.Meets b) : b.Meets a := text_eq_iff.mp (text_eq_iff.mpr h).symm

/-- Where parts meet, one of the fronts continues the other. -/
theorem Meets.continues (h : a.Meets b) : Continues a.front b.front ∨ Continues b.front a.front := by
  rcases h with rfl | ⟨more, hfront, -⟩ | ⟨more, hfront, -⟩
  · exact .inl (.inl rfl)
  · exact .inl (.inr ⟨more, hfront⟩)
  · exact .inr (.inr ⟨more, hfront⟩)

end Joined

/-! ### The private members of a class -/

/-- The emitted names of the private members of instances: of fields and methods, and of the getter,
the setter and the field of each accessor. -/
def ClassPlan.privateMembers (p : ClassPlan) : List String :=
  (p.decl.privateNames false).map p.scope.memberName ++
    (p.accessors.filter (·.visibility = .owner)).flatMap (·.memberNames)

namespace ClassDecl

variable (c c' : ClassDecl)

/-- The properties of the private accessors. -/
def privateProperties : List String := (c.accessors.filter (·.visibility = .owner)).map (·.name)

/-- The parts of the mangled names. -/
def mangledParts : List Joined :=
  (c.privateNames false ++ c.privateProperties.map storageName).map fun member => ⟨c.name.flat, member⟩

/-- The parts of the names of private getters and setters. -/
def accessorParts : List Joined := c.privateProperties.flatMap fun property => [⟨"get", property⟩, ⟨"set", property⟩]

/-- The parts of the names of all private members. -/
def privateParts : List Joined := c.mangledParts ++ c.accessorParts

/-- The name is the getter or the setter of a property that both classes declare as private. -/
def SharesAccessor (name : String) : Prop :=
  ∃ property ∈ c.privateProperties, property ∈ c'.privateProperties ∧ IsAccessor property name

/-- One of the flat names of the classes continues the other, or the front of an accessor. -/
def Entangled : Prop :=
  Continues c.name.flat c'.name.flat ∨ Continues c'.name.flat c.name.flat ∨
    ∃ front ∈ ["get", "set"], Continues front c.name.flat ∨ Continues front c'.name.flat

/-- The name is mangled for a member of one of the classes and has parts that meet those of a private
member of the other, which takes entangled classes. -/
structure Blurs (name : String) : Prop where
  classes : c.Entangled c'
  members : ∃ a ∈ c.privateParts, ∃ b ∈ c'.privateParts,
    (a ∈ c.mangledParts ∨ b ∈ c'.mangledParts) ∧ a.text = name ∧ a.Meets b

variable {c c'} {t : SymbolTable} {o : Options} {p : ClassPlan} {name : String}

theorem mem_mangledParts : (∃ a ∈ c.mangledParts, a.text = name) ↔
    (∃ n ∈ c.privateNames false, privateName c.name n = name) ∨
      ∃ property ∈ c.privateProperties, privateName c.name (storageName property) = name := by
  rw [← List.mem_map, mangledParts, List.map_map, List.map_append, List.map_map, List.mem_append,
    List.mem_map, List.mem_map]
  rfl

theorem mem_accessorParts : (∃ a ∈ c.accessorParts, a.text = name) ↔
    ∃ property ∈ c.privateProperties, IsAccessor property name := by
  simp only [accessorParts, List.mem_flatMap, List.mem_cons, List.not_mem_nil, or_false]
  constructor
  · rintro ⟨_, ⟨property, hproperty, rfl | rfl⟩, rfl⟩
    · exact ⟨property, hproperty, .inl rfl⟩
    · exact ⟨property, hproperty, .inr rfl⟩
  · rintro ⟨property, hproperty, rfl | rfl⟩
    · exact ⟨_, ⟨property, hproperty, .inl rfl⟩, rfl⟩
    · exact ⟨_, ⟨property, hproperty, .inr rfl⟩, rfl⟩

theorem front_of_mangled {a : Joined} (h : a ∈ c.mangledParts) : a.front = c.name.flat := by
  obtain ⟨member, -, rfl⟩ := List.mem_map.mp h
  rfl

theorem front_of_accessor {a : Joined} (h : a ∈ c.accessorParts) : a.front ∈ ["get", "set"] := by
  obtain ⟨property, -, hparts⟩ := List.mem_flatMap.mp h
  simp only [List.mem_cons, List.not_mem_nil, or_false] at hparts
  rcases hparts with rfl | rfl
  · exact .head _
  · exact .tail _ (.head _)

theorem Entangled.symm (h : c.Entangled c') : c'.Entangled c := by
  rcases h with h | h | ⟨front, hfront, h⟩
  · exact .inr (.inl h)
  · exact .inl h
  · exact .inr (.inr ⟨front, hfront, h.symm⟩)

/-- A mangled name that meets that of a private member entangles the classes. -/
theorem entangled_of_meets {a b : Joined} (ha : a ∈ c.mangledParts) (hb : b ∈ c'.privateParts)
    (h : a.Meets b) : c.Entangled c' := by
  have howner := front_of_mangled ha
  rcases List.mem_append.mp hb with hb | hb
  · have howner' := front_of_mangled hb
    rw [Entangled, ← howner, ← howner']
    exact h.continues.elim .inl fun h => .inr (.inl h)
  · have hfront := front_of_accessor hb
    have hcontinues := Continues.of_accessor hfront h.continues
    rw [howner] at hcontinues
    exact .inr (.inr ⟨b.front, hfront, .inl hcontinues⟩)

/-- Private fields and methods have their owner's name in theirs. -/
theorem Planned.private_names (h : c.Planned t o p) (hmangled : o.mangledPrivates = true) :
    (p.decl.privateNames false).map p.scope.memberName = (c.privateNames false).map (privateName c.name) := by
  have hscope : p.scope = c.scope o := by rw [ClassPlan.scope, h.decl, h.options]
  rw [h.decl, hscope]
  exact List.map_congr_left fun n hn => by rw [memberName_eq, if_pos ⟨hmangled, hn⟩]

/-- Private pairs are those of private accessors, and have their owner's name in their storage only. -/
theorem Planned.private_pairs (h : c.Planned t o p) (hmangled : o.mangledPrivates = true) :
    (p.accessors.filter (·.visibility = .owner)).flatMap (·.memberNames) =
      c.privateProperties.flatMap fun property =>
        [getterName property, setterName property, privateName c.name (storageName property)] := by
  have hpairs : p.accessors.filter (·.visibility = .owner) =
      (c.accessors.filter (·.visibility = .owner)).map (.ofDeclared c.name true) := by
    rw [h.accessors, List.filter_append, declaredPairs, List.filter_map, List.filter_map, hmangled]
    simp [Function.comp_def, AccessorPair.ofDeclared, AccessorPair.ofIdentity]
  rw [hpairs, privateProperties, List.flatMap_map, List.flatMap_map]
  refine List.flatMap_congr fun a ha => ?_
  have hprivate := (List.mem_filter.mp ha).2
  simp only [AccessorPair.memberNames, AccessorPair.getter, AccessorPair.setter, AccessorPair.ofDeclared,
    hprivate, Bool.and_self, if_true]

/-- The names of the private members of a class are joined from their parts. -/
theorem Planned.mem_privateMembers (h : c.Planned t o p) (hmangled : o.mangledPrivates = true) :
    name ∈ p.privateMembers ↔ ∃ a ∈ c.privateParts, a.text = name := by
  rw [ClassPlan.privateMembers, h.private_names hmangled, h.private_pairs hmangled]
  simp only [privateParts, List.mem_append, or_and_right, exists_or, mem_mangledParts, mem_accessorParts,
    List.mem_map, List.mem_flatMap, List.mem_cons, List.not_mem_nil, or_false, IsAccessor, and_or_left,
    eq_comm (a := name)]
  exact (or_congr_right or_rotate.symm).trans or_assoc.symm

/-- Classes that share an accessor have its names in common. -/
theorem Planned.mem_of_sharesAccessor {p' : ClassPlan} (h : c.Planned t o p) (h' : c'.Planned t o p')
    (hmangled : o.mangledPrivates = true) (hshares : c.SharesAccessor c' name) :
    name ∈ p.privateMembers ∧ name ∈ p'.privateMembers := by
  obtain ⟨property, hproperty, hproperty', hname⟩ := hshares
  obtain ⟨a, ha, rfl⟩ := mem_accessorParts.mpr ⟨property, hproperty, hname⟩
  obtain ⟨b, hb, htext⟩ := mem_accessorParts.mpr ⟨property, hproperty', hname⟩
  exact ⟨(h.mem_privateMembers hmangled).mpr ⟨a, List.mem_append_right _ ha, rfl⟩,
    (h'.mem_privateMembers hmangled).mpr ⟨b, List.mem_append_right _ hb, htext⟩⟩

end ClassDecl

/-- **Where private members are mangled, two classes share the getters and setters of the private
properties that both declare, and no other name of a private member whose parts do not meet those
of another one.** -/
theorem private_members_shared (c c' : ClassDecl) (t : SymbolTable) (o : Options) (out out' : ClassOutput)
    (hout : c.emit t o = .ok out) (hout' : c'.emit t o = .ok out') (hmangled : o.mangledPrivates = true)
    (name : String) :
    (c.SharesAccessor c' name → name ∈ out.plan.privateMembers ∧ name ∈ out'.plan.privateMembers) ∧
      (name ∈ out.plan.privateMembers ∧ name ∈ out'.plan.privateMembers →
        c.SharesAccessor c' name ∨ c.Blurs c' name) := by
  obtain ⟨p, hp, -, rfl⟩ := ClassDecl.emit_eq_ok.mp hout
  obtain ⟨p', hp', -, rfl⟩ := ClassDecl.emit_eq_ok.mp hout'
  have h := ClassDecl.plan_eq_ok hp
  have h' := ClassDecl.plan_eq_ok hp'
  refine ⟨h.mem_of_sharesAccessor h' hmangled, fun hboth => ?_⟩
  obtain ⟨a, ha, htext⟩ := (h.mem_privateMembers hmangled).mp hboth.1
  obtain ⟨b, hb, htext'⟩ := (h'.mem_privateMembers hmangled).mp hboth.2
  -- Two accessors tell their property; only mangled names can be divided at different underscores.
  by_cases hparts : a ∈ c.mangledParts ∨ b ∈ c'.mangledParts
  · have hmeets := Joined.text_eq_iff.mp (htext.trans htext'.symm)
    have hentangled : c.Entangled c' := hparts.elim (ClassDecl.entangled_of_meets · hb hmeets)
      fun hmangled' => (ClassDecl.entangled_of_meets hmangled' ha hmeets.symm).symm
    exact .inr ⟨hentangled, a, ha, b, hb, hparts, htext, hmeets⟩
  · obtain ⟨hna, hnb⟩ := not_or.mp hparts
    have haccessor := (List.mem_append.mp ha).resolve_left hna
    have haccessor' := (List.mem_append.mp hb).resolve_left hnb
    obtain ⟨property, hproperty, hname⟩ := ClassDecl.mem_accessorParts.mp ⟨a, haccessor, htext⟩
    obtain ⟨property', hproperty', hname'⟩ := ClassDecl.mem_accessorParts.mp ⟨b, haccessor', htext'⟩
    obtain rfl := hname.inj hname'
    exact .inl ⟨property, hproperty, hproperty', hname⟩

/-- A panel that keeps privately the size of its header and its title. -/
def panel : ClassDecl where
  name := ⟨"app.Panel"⟩
  fields := [{ name := "Header_size", type := .builtin "int", visibility := .owner }]
  accessors := [{ name := "title", type := .builtin "String", visibility := .owner }]

/-- A class that extends the panel and keeps privately its size and its title. -/
def header (name : Name) : ClassDecl where
  name
  base := some ⟨"app.Panel"⟩
  fields := [{ name := "size", type := .builtin "int", visibility := .owner }]
  accessors := [{ name := "title", type := .builtin "String", visibility := .owner }]

/-- The panel and its header in one module. -/
def headedProgram (name : Name) : Program where
  modules := [{ name := ⟨"app.Panel"⟩, classes := [panel, header name] }]

/-- The getter and the setter of the title are all that the panel and its header have in common. -/
theorem panel_shares_title :
    ∃ t out out', SymbolTable.ofProgram (headedProgram ⟨"app.Header"⟩) .dotted = .ok t ∧
      panel.emit t mangling = .ok out ∧ (header ⟨"app.Header"⟩).emit t mangling = .ok out' ∧
      mangling.mangledPrivates = true ∧
      out.plan.privateMembers = ["app_Panel_Header_size", "get_title", "set_title", "app_Panel_title_"] ∧
      out'.plan.privateMembers = ["app_Header_size", "get_title", "set_title", "app_Header_title_"] ∧
      ∀ name, name ∈ out.plan.privateMembers ∧ name ∈ out'.plan.privateMembers ↔
        panel.SharesAccessor (header ⟨"app.Header"⟩) name := by
  obtain ⟨t, out, out', ht, hout, hout'⟩ : ∃ t out out',
      SymbolTable.ofProgram (headedProgram ⟨"app.Header"⟩) .dotted = .ok t ∧
        panel.emit t mangling = .ok out ∧ (header ⟨"app.Header"⟩).emit t mangling = .ok out' :=
    ⟨_, _, _, rfl, rfl, rfl⟩
  have hshared := private_members_shared panel (header ⟨"app.Header"⟩) t mangling out out' hout hout' rfl
  have hclear (name : String) : ¬panel.Blurs (header ⟨"app.Header"⟩) name := by
    rintro ⟨-, a, ha, b, hb, hmangled, -, hmeets⟩
    revert a b
    decide +kernel
  refine ⟨t, out, out', ht, hout, hout', rfl, ?_, ?_, fun name => ?_⟩
  · obtain rfl := Except.ok.inj ht
    obtain rfl := Except.ok.inj hout
    decide +kernel
  · obtain rfl := Except.ok.inj ht
    obtain rfl := Except.ok.inj hout'
    decide +kernel
  · exact ⟨fun hboth => ((hshared name).2 hboth).resolve_right (hclear name), (hshared name).1⟩

/-- A header that is named like a private field of the panel shares the mangled name of its size as
well as the getter of the title. -/
theorem panel_header_aliases :
    ∃ t out out', SymbolTable.ofProgram (headedProgram ⟨"app.Panel_Header"⟩) .dotted = .ok t ∧
      panel.emit t mangling = .ok out ∧ (header ⟨"app.Panel_Header"⟩).emit t mangling = .ok out' ∧
      (header ⟨"app.Panel_Header"⟩).base = some panel.name ∧ panel.name ≠ ⟨"app.Panel_Header"⟩ ∧
      mangling.mangledPrivates = true ∧
      (∀ name ∈ ["app_Panel_Header_size", "get_title"],
        name ∈ out.plan.privateMembers ∧ name ∈ out'.plan.privateMembers) ∧
      ¬∀ name ∈ out.plan.privateMembers, name ∉ out'.plan.privateMembers := by
  refine ⟨_, _, _, rfl, rfl, rfl, rfl, by decide, rfl, by decide +kernel, fun hapart => ?_⟩
  exact hapart "get_title" (by decide +kernel) (by decide +kernel)

end Lowering
