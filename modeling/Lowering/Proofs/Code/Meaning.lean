import Lowering.Proofs.Code.Lexemes
import Lowering.Proofs.Code.References
import Lowering.Proofs.Output.Placement
import Lowering.Proofs.Script.Parentheses
import Lowering.Proofs.Script.Unambiguous

/-! The meaning of emitted expressions.

The code of an expression is meant to be an expression of the script with the same structure. By
the grammar of the script it is that expression and no other one, exactly if no literal stands where
it would need parentheses (`meaning_kept_iff`): a negative literal that is accessed, called or raised
to a power, and a whole numeral that is accessed. -/
namespace Lowering

open Script (Alphabet Form Follows Reads flatten weight)

/-! ### Identifiers of classes -/

namespace Name

variable {A : Alphabet} {n : Name}

theorem splitDots_of_not_mem {cs : List Char} (h : '.' ∉ cs) : splitDots cs = [cs] := by
  induction cs with
  | nil => rfl
  | cons c cs ih =>
    obtain ⟨hc, hcs⟩ := not_or.mp (mt List.mem_cons.mpr h)
    rw [splitDots, if_neg (Ne.symm hc), ih hcs]

theorem point_not_mem {name : List Char} (h : A.IsName name) : '.' ∉ name := by
  intro hmem
  have hpart := Alphabet.isPart_of_isName h '.' hmem
  simp [A.part_ascii '.' (by decide)] at hpart

/-- A name by itself is a path. -/
theorem isPath_of_identifier {text : String} (h : A.IsIdentifier text) : A.IsPath ⟨text⟩ := by
  have hsegments : (⟨text⟩ : Name).segments = [text] := by
    rw [segments, splitDots_of_not_mem (point_not_mem h.1), List.map_singleton, String.ofList_toList]
  rw [Alphabet.IsPath, hsegments]
  refine ⟨List.forall_mem_singleton.mpr h.1, ?_⟩
  rintro first ⟨⟩
  exact h.2

/-- A text with an underscore or a dollar sign is no reserved word. -/
theorem not_reserved {text : String} {c : Char} (hc : c = '_' ∨ c = '$') (h : c ∈ text.toList) :
    text ∉ Script.reserved := by
  have hnone : ∀ word ∈ Script.reserved, '_' ∉ word.toList ∧ '$' ∉ word.toList := by decide
  intro hreserved
  rcases hc with rfl | rfl
  · exact (hnone text hreserved).1 h
  · exact (hnone text hreserved).2 h

/-- A flattened path is a name. -/
theorem isIdentifier_flat (h : A.IsPath n) : A.IsIdentifier n.flat := by
  obtain ⟨first, rest, hsegments, htext⟩ := n.segments_eq
  obtain ⟨hnames, hreserved⟩ := h
  rw [hsegments, List.forall_mem_cons] at hnames
  have hkept {name : List Char} (hname : A.IsName name) :
      name.map (fun c => if c = '.' then '_' else c) = name := by
    refine (List.map_congr_left fun c hc => ?_).trans (List.map_id name)
    exact if_neg fun hpoint : c = '.' => point_not_mem hname (hpoint ▸ hc)
  have hflat : n.flat.toList = first.toList ++ rest.flatMap ('_' :: ·.toList) := by
    rw [flat, String.toList_ofList, htext, List.map_append, hkept hnames.1, List.map_flatMap]
    congr 1
    refine List.flatMap_congr fun segment hsegment => ?_
    rw [List.map_cons, hkept (hnames.2 segment hsegment)]
    rfl
  constructor
  · rw [hflat]
    refine Alphabet.isName_append hnames.1 fun c hc => ?_
    obtain ⟨segment, hsegment, hc⟩ := List.mem_flatMap.mp hc
    rcases List.mem_cons.mp hc with rfl | hc
    · exact A.part_ascii '_' (by decide)
    · exact Alphabet.isPart_of_isName (hnames.2 segment hsegment) c hc
  · cases rest with
    | nil =>
      have hplain : n.flat = first := by
        rw [← String.toList_inj, hflat, List.flatMap_nil, List.append_nil]
      rw [hplain]
      exact hreserved first (by rw [hsegments]; rfl)
    | cons segment rest => exact not_reserved (.inl rfl) (by simp [hflat])

theorem isIdentifier_numbered {stem : String} (h : A.IsName stem.toList) (k : Nat) :
    A.IsIdentifier (numbered stem k) := by
  have htext : (numbered stem k).toList = stem.toList ++ '$' :: Nat.toDigits 10 k := by
    simp [numbered]
  constructor
  · rw [htext]
    refine Alphabet.isName_append h (List.forall_mem_cons.mpr ⟨A.part_ascii '$' (by decide), ?_⟩)
    exact fun c hc => Alphabet.part_of_digit (isDigit_toDigits hc)
  · exact not_reserved (.inr rfl) (by simp [htext])

end Name

/-- Frozen tables spell paths as paths. -/
theorem Registry.isPath_spelling {A : Alphabet} {r : Registry} {style : NameStyle} {t : SymbolTable}
    {n : Name} (h : r.freeze style = .ok t) (hn : A.IsPath n) : A.IsPath ⟨t.spelling n⟩ := by
  cases style with
  | dotted =>
    rw [spelling_dotted h]
    exact hn
  | flattened =>
    rw [spelling_flattened h]
    have hflat := Name.isIdentifier_flat hn
    split
    · exact Name.isPath_of_identifier hflat
    · exact Name.isPath_of_identifier (Name.isIdentifier_numbered hflat.1 _)

/-! ### Meaning -/

namespace Expr

variable {A : Alphabet} {s : Scope} {spelling : Name → String} {e : Expr}

/-- The code of a regular expression is the expression that it is meant to be exactly if no literal
stands where it needs parentheses. -/
theorem parses_code_iff (hs : s.IsRegular A) (hspelling : ∀ n, A.IsPath n → A.IsPath ⟨spelling n⟩)
    (hregular : e.Throughout (·.IsRegular A)) :
    A.Parses ((e.code s).text spelling) (e.tree s spelling) ↔
      e.Throughout fun d => d.binds ∧ d.joins := by
  have hfits := fits_form_iff hs hspelling hregular
  have hreads := reads_code hs hspelling hregular
  have hbare := bare_form s spelling e
  rw [throughout_and]
  constructor
  · rintro ⟨f, hf, hlexes, hftree⟩
    have hsame : f.bare = (e.form s spelling).bare := hftree.trans hbare.symm
    obtain ⟨hjoins, hrow⟩ := hreads.clear_of_lexes hlexes (Form.weight_eq_of_bare hsame)
    have hform := hf.eq_of_bare hsame (Script.flatten_injective hrow)
    exact ⟨hfits.mp (hform ▸ hf), hjoins⟩
  · rintro ⟨hbinds, hjoins⟩
    exact ⟨_, hfits.mpr hbinds, hreads.lexes hjoins, hbare⟩

end Expr

/-- What has to be registered is what the expression refers to. -/
theorem Expr.mem_references_code {s : Scope} {e : Expr} {n : Name} :
    n ∈ Code.references (e.code s) ↔ n ∈ e.references := by
  rw [references_code]

/-- **An expression that refers to registered classes has a text, and the text means what the
expression says, and nothing else, exactly if no negative literal in it is accessed, called or raised
to a power, and no whole numeral is accessed.** -/
theorem meaning_kept_iff {A : Alphabet} {r : Registry} {style : NameStyle} {t : SymbolTable} {s : Scope}
    {e : Expr} (h : r.freeze style = .ok t) (hs : s.IsRegular A)
    (hregular : e.Throughout (·.IsRegular A)) (hknown : ∀ n ∈ e.references, t.contains n = true) :
    ∃ text, t.write s.owner (e.code s) = .ok text ∧
      ((∀ tree, A.Parses text tree ↔ tree = e.tree s t.spelling) ↔
        e.Throughout fun d => d.binds ∧ d.joins) := by
  have hwrite : t.write s.owner (e.code s) = .ok ((e.code s).text t.spelling) :=
    t.write_eq s.owner fun n hn => hknown n (Expr.mem_references_code.mp hn)
  refine ⟨_, hwrite, ?_⟩
  rw [← Expr.parses_code_iff hs (fun _ hn => Registry.isPath_spelling h hn) hregular]
  constructor
  · intro hmeaning
    exact (hmeaning _).mpr rfl
  · intro hparses tree
    constructor
    · exact fun hother => hother.unique hparses
    · rintro rfl
      exact hparses

def appScope : Scope where
  owner := ⟨"App"⟩
  languageHelper := ⟨"org.apache.royale.utils.Language"⟩

theorem isRegular_appScope : appScope.IsRegular .ascii where
  renames := nofun
  staticRenames := nofun
  languageHelper := by decide +kernel

/-- The caption of a model is set to a computed value. -/
def captionSet : Expr :=
  .assign (.member (.cast (.member .this "model" false) (.declared ⟨"models.MyModel"⟩)) "labelText" true)
    (.binary "*" (.binary "+" (.ident "count") (.literal (.int 1))) (.literal (.int (-2))))

def captionText : String :=
  "org.apache.royale.utils.Language.as(this.model, models.MyModel, true)" ++
    ".set_labelText((count + 1) * -2)"

/-- A cast, a setter, an operation in parentheses and a negative operand, with the text and the tree. -/
theorem captionSet_meaning_kept :
    ∃ t, (Registry.empty.registerAll [{ name := ⟨"models.MyModel"⟩ }]).1.freeze .dotted = .ok t ∧
      appScope.IsRegular .ascii ∧ captionSet.Throughout (·.IsRegular .ascii) ∧
      t.write appScope.owner (captionSet.code appScope) = .ok captionText ∧
      ∀ tree, Alphabet.ascii.Parses captionText tree ↔ tree = captionSet.tree appScope t.spelling := by
  have h : (Registry.empty.registerAll [{ name := ⟨"models.MyModel"⟩ }]).1.freeze .dotted = .ok _ := rfl
  have hregular : captionSet.Throughout (·.IsRegular .ascii) := by decide +kernel
  obtain ⟨text, htext, hmeaning⟩ := meaning_kept_iff h isRegular_appScope hregular (by decide +kernel)
  obtain rfl : captionText = text := Except.ok.inj (htext.symm.trans rfl).symm
  exact ⟨_, h, isRegular_appScope, hregular, htext, hmeaning.mpr (by decide +kernel)⟩

/-- Literals where they need parentheses, with the text that is written: a negative one accessed,
called and raised to a power, and a whole one accessed. -/
def bareLiterals : List (Expr × String) :=
  [(.member (.literal (.int 1)) "foo" false, "1.foo"),
    (.member (.literal (.number ⟨0xBFF8000000000000⟩)) "foo" false, "-1.5.foo"),
    (.call (.literal (.int (-5))) [], "-5()"),
    (.binary "**" (.literal (.int (-2))) (.literal (.int 2)), "-2 ** 2")]

theorem bareLiterals_misread :
    ∃ t, Registry.empty.freeze .dotted = .ok t ∧ appScope.IsRegular .ascii ∧
      ∀ p ∈ bareLiterals, p.1.Throughout (·.IsRegular .ascii) ∧
        t.write appScope.owner (p.1.code appScope) = .ok p.2 ∧
        ¬Alphabet.ascii.Parses p.2 (p.1.tree appScope t.spelling) := by
  obtain ⟨t, ht⟩ : ∃ t, Registry.empty.freeze .dotted = .ok t := ⟨_, rfl⟩
  have hregular : ∀ p ∈ bareLiterals, p.1.Throughout (·.IsRegular .ascii) := by decide +kernel
  have hreferences : ∀ p ∈ bareLiterals, Code.references (p.1.code appScope) = [] := by decide +kernel
  have htext : ∀ p ∈ bareLiterals, Code.text t.spelling (p.1.code appScope) = p.2 := by
    simp only [bareLiterals, List.forall_mem_cons]
    exact ⟨rfl, rfl, rfl, rfl, nofun⟩
  have hloose : ∀ p ∈ bareLiterals, ¬p.1.Throughout fun d => d.binds ∧ d.joins := by decide +kernel
  refine ⟨t, ht, isRegular_appScope, fun p hp => ⟨hregular p hp, ?_, fun hparses => ?_⟩⟩
  · rw [t.write_eq appScope.owner (by simp [hreferences p hp]), htext p hp]
  · rw [← htext p hp, Expr.parses_code_iff isRegular_appScope
      (fun _ hn => Registry.isPath_spelling ht hn) (hregular p hp)] at hparses
    exact hloose p hp hparses

end Lowering
