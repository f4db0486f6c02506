import Lowering.Proofs.Code.Binding
import Lowering.Proofs.Code.Literals

/-! How the code of expressions is read.

The code of an expression is read as the lexemes of its form, unless a whole numeral is what a
member is accessed on (`reads_code`): then the name goes on the numeral, or may not stand there, and
there are fewer atoms than in the form. -/
namespace Lowering

open Script (Alphabet Form Follows Reads flatten commas)

/-! ### The characters of code -/

namespace Code

variable (spelling : Name → String)

def chars (c : Code) : List Char := (c.text spelling).toList

@[simp] theorem chars_nil : chars spelling [] = [] := rfl

@[simp] theorem chars_cons (p : Piece) (c : Code) :
    chars spelling (p :: c) = (p.text spelling).toList ++ chars spelling c := by
  rw [chars, text, List.map_cons, String.join_cons, String.toList_append]
  rfl

@[simp] theorem chars_append (c d : Code) :
    chars spelling (c ++ d) = chars spelling c ++ chars spelling d := by
  induction c with
  | nil => rfl
  | cons p c ih => rw [List.cons_append, chars_cons, ih, chars_cons, List.append_assoc]

@[simp] theorem chars_between (opening closing : String) (c : Code) :
    chars spelling (c.between opening closing) =
      opening.toList ++ (chars spelling c ++ closing.toList) := by
  simp [between, Piece.text]

@[simp] theorem chars_joined (separator : String) (parts : List Code) :
    chars spelling (joined separator parts) =
      List.intercalate separator.toList (parts.map (chars spelling)) := by
  match parts with
  | [] => rfl
  | [c] => simp [joined]
  | c :: d :: rest =>
    have hrest := chars_joined separator (d :: rest)
    rw [joined, List.intercalate_cons_cons, chars_append, chars_append, ← joined, hrest]
    simp [Piece.text]

@[simp] theorem chars_type (use : NameUse) (t : TypeRef) :
    chars spelling (t.code use) = (t.spelled spelling).text.toList := by
  cases t <;> simp [TypeRef.code, TypeRef.spelled, Piece.text]

end Code

/-! ### Paths -/

namespace Name

variable {A : Alphabet} {n : Name}

theorem splitDots_eq (cs : List Char) :
    ∃ first rest, splitDots cs = first :: rest ∧ cs = first ++ rest.flatMap ('.' :: ·) := by
  induction cs with
  | nil => exact ⟨[], [], rfl, rfl⟩
  | cons c cs ih =>
    obtain ⟨first, rest, hsplit, htext⟩ := ih
    rw [splitDots, hsplit]
    by_cases hc : c = '.'
    · rw [if_pos hc, hc, htext]
      exact ⟨[], first :: rest, rfl, rfl⟩
    · rw [if_neg hc, htext]
      exact ⟨c :: first, rest, rfl, rfl⟩

/-- The segments with dots in front of all but the first make up the text. -/
theorem segments_eq (n : Name) :
    ∃ first rest, n.segments = first :: rest ∧
      n.text.toList = first.toList ++ rest.flatMap ('.' :: ·.toList) := by
  obtain ⟨first, rest, hsplit, htext⟩ := splitDots_eq n.text.toList
  refine ⟨String.ofList first, rest.map String.ofList, by rw [segments, hsplit, List.map_cons], ?_⟩
  rw [htext, List.flatMap_map]
  simp

theorem reads_accesses {cs : List Char} {f : Form} (h : Reads A A.Ends cs (flatten f.phrases) True)
    (rest : List String) (hnames : ∀ segment ∈ rest, A.IsName segment.toList) :
    Reads A A.Ends (cs ++ rest.flatMap ('.' :: ·.toList)) (flatten (rest.foldl Form.access f).phrases)
      True := by
  induction rest generalizing cs f with
  | nil => exact h.of_eq (List.append_nil _) rfl Iff.rfl
  | cons segment rest ih =>
    obtain ⟨hsegment, hrest⟩ := List.forall_mem_cons.mp hnames
    have haccess := Script.reads_access (h.of_ends true) hsegment
    exact (ih haccess hrest).of_eq (by simp) rfl Iff.rfl

/-- A path is read as accesses to members. -/
theorem reads_path (h : A.IsPath n) : Reads A A.Ends n.text.toList (flatten n.tree.phrases) True := by
  obtain ⟨first, rest, hsegments, htext⟩ := n.segments_eq
  obtain ⟨hnames, -⟩ := h
  rw [hsegments, List.forall_mem_cons] at hnames
  rw [htext, tree, hsegments]
  exact reads_accesses (Script.reads_word hnames.1) rest hnames.2

end Name

namespace Expr

/-- Whether the expression is a numeral without a point. -/
def isWhole : Expr → Bool
  | literal value => value.magnitude.isWhole
  | _ => false

/-- No member is accessed on a whole numeral. -/
def joins : Expr → Bool
  | member object _ _ => !object.isWhole
  | _ => true

/-- A point may come right behind the expression. -/
def takesPoint (e : Expr) : Bool := !e.isLooseOperand && !e.isWhole

variable {A : Alphabet} {s : Scope} {spelling : Name → String} {e object : Expr} {clear : Prop}

theorem codeEach_eq (es : List Expr) : codeEach s es = es.map (code s) := by
  induction es with
  | nil => rfl
  | cons e rest ih => rw [codeEach, ih, List.map_cons]

/-! ### Operands and receivers -/

/-- Parentheses are read as such, and what is in them stands by itself. -/
theorem reads_paren
    (h : Reads A (Follows false) ((e.code s).chars spelling) (flatten (e.form s spelling).phrases) clear) :
    Reads A Script.Anything ((parenthesized true (e.code s)).chars spelling)
      (flatten (enclosed true (e.form s spelling)).phrases) clear :=
  (Script.reads_group .round (by decide) h).of_eq
    (by simp [parenthesized, Script.Bracket.left, Script.Bracket.right]) rfl Iff.rfl

theorem reads_parenthesized (needed : Bool)
    (h : Reads A (Follows false) ((e.code s).chars spelling) (flatten (e.form s spelling).phrases) clear) :
    Reads A (Follows false) ((parenthesized needed (e.code s)).chars spelling)
      (flatten (enclosed needed (e.form s spelling)).phrases) clear := by
  cases needed with
  | true => exact (reads_paren h).of_anything _
  | false => exact h

/-- A member is read as an access, unless its name runs together with a whole numeral. -/
theorem reads_member {name : String} (hname : A.IsName name.toList)
    (h : Reads A (Follows object.takesPoint) ((object.code s).chars spelling)
      (flatten (object.form s spelling).phrases) clear) :
    Reads A (Follows true)
      ((parenthesized object.isLooseReceiver (object.code s)).chars spelling ++ '.' :: name.toList)
      (flatten (Form.access (enclosed object.isLooseReceiver (object.form s spelling)) name).phrases)
      (object.isWhole = false ∧ clear) := by
  cases hwhole : object.isWhole with
  | true =>
    cases object with
    | literal v =>
      have hfused := Literal.reads_whole (A := A) hwhole hname
      exact hfused.of_eq (by simp [code, parenthesized, isLooseReceiver, Piece.text])
        (by simp [form, enclosed, isLooseReceiver]) (by simp)
    | _ => cases hwhole
  | false =>
    rw [eq_self, true_and]
    cases hloose : object.isLooseReceiver with
    | true => exact (Script.reads_access ((reads_paren h.closed).of_anything true) hname).of_ends true
    | false =>
      have hpoint : object.takesPoint = true := by
        rw [takesPoint, not_looseOperand (by simp [hloose]), hwhole]
        rfl
      rw [hpoint] at h
      exact (Script.reads_access h hname).of_ends true

/-- Arguments, or the items of an array. -/
theorem reads_codeEach {es : List Expr} {clear : Expr → Prop}
    (h : ∀ e ∈ es, Reads A (Follows e.takesPoint) ((e.code s).chars spelling)
      (flatten (e.form s spelling).phrases) (clear e)) :
    Reads A (Follows false) ((Code.joined ", " (codeEach s es)).chars spelling)
      (flatten (commas (Form.phrasesEach (formEach s spelling es)))) (∀ e ∈ es, clear e) := by
  refine (Script.reads_row fun e he => (h e he).closed).of_eq ?_ ?_ Iff.rfl
  · simp [codeEach_eq]
    rfl
  · rw [formEach_eq, Form.phrasesEach_eq, List.map_map]
    rfl

/-! ### Names of members -/

theorem isName_getter {name : String} (h : A.IsName name.toList) :
    A.IsName (getterName name).toList := by
  rw [getterName, String.toList_append]
  exact Alphabet.isName_append (Alphabet.isName_of_ascii (by decide)) (Alphabet.isPart_of_isName h)

theorem isName_setter {name : String} (h : A.IsName name.toList) :
    A.IsName (setterName name).toList := by
  rw [setterName, String.toList_append]
  exact Alphabet.isName_append (Alphabet.isName_of_ascii (by decide)) (Alphabet.isPart_of_isName h)

theorem isName_renamed {renames : OrderedMap String} {name : String} (h : A.IsName name.toList)
    (hrenames : ∀ name new, renames.get? name = some new → A.IsName new.toList) :
    A.IsName ((renames.get? name).getD name).toList := by
  cases hnew : renames.get? name with
  | none => exact h
  | some new => exact hrenames name new hnew

theorem isName_memberNameOn (hs : s.IsRegular A) (object : Expr) {name : String}
    (h : A.IsName name.toList) :
    A.IsName (object.memberNameOn s name).toList := by
  unfold memberNameOn
  split
  · exact isName_renamed h hs.renames
  · exact h

theorem isName_staticNameOn (hs : s.IsRegular A) (owner : TypeRef) {name : String}
    (h : A.IsName name.toList) : A.IsName (staticNameOn s owner name).toList := by
  unfold staticNameOn
  split
  · split
    · exact isName_renamed h hs.staticRenames
    · exact h
  · exact h

/-! ### Expressions -/

/-- The code of a regular expression is read as the lexemes of its form, exactly if no member is
accessed on a whole numeral. -/
theorem reads_code (hs : s.IsRegular A) (hspelling : ∀ n, A.IsPath n → A.IsPath ⟨spelling n⟩)
    (hregular : e.Throughout (·.IsRegular A)) :
    Reads A (Follows e.takesPoint) ((e.code s).chars spelling) (flatten (e.form s spelling).phrases)
      (e.Throughout (·.joins)) := by
  have htype {t : TypeRef} (ht : t.IsRegular A) :
      Reads A A.Ends (t.spelled spelling).text.toList (flatten (t.tree spelling).phrases) True := by
    cases t with
    | builtin name => exact Name.reads_path ht
    | declared n => exact Name.reads_path (hspelling n ht)
  have hnone : Reads A (Follows false) [] (flatten []) True := .nil
  induction e using Expr.induction with
  | literal v => exact v.reads_render.of_eq (by simp [code, Piece.text]) rfl (by simp [joins])
  | this =>
    have hthis : Reads A A.Ends _ _ True := Script.reads_ascii "this" (by decide)
    exact (hthis.of_ends _).of_eq (by simp [code, Piece.text]) rfl (by simp [joins])
  | ident name =>
    have hname := Script.reads_word ((throughout_ident name).mp hregular).1
    exact (hname.of_ends _).of_eq (by simp [code, Piece.text]) rfl (by simp [joins])
  | member object name accessor ih =>
    obtain ⟨hname, hobject⟩ := (throughout_member ..).mp hregular
    cases accessor with
    | true =>
      have hcall := Script.reads_applied (reads_member (isName_getter hname) (ih hobject)).closed hnone
      exact (hcall.of_anything _).of_eq (by simp [code, Piece.text]) rfl (by simp [joins])
    | false =>
      have hmember := reads_member (isName_memberNameOn hs object hname) (ih hobject)
      exact hmember.of_eq (by simp [code, Piece.text]) rfl (by simp [joins])
  | staticMember owner name =>
    obtain ⟨howner, hname⟩ := (throughout_staticMember ..).mp hregular
    have hstatic := isName_staticNameOn hs owner hname
    have haccess := Script.reads_access ((htype howner).of_ends true) hstatic
    exact (haccess.of_ends _).of_eq (by simp [code, Piece.text]) rfl (by simp [joins])
  | call callee args ih ihargs =>
    obtain ⟨-, hcallee, hargs⟩ := (throughout_call ..).mp hregular
    have hrow := reads_codeEach fun e he => ihargs e he (hargs e he)
    have hreceiver := reads_parenthesized callee.isLooseReceiver (ih hcallee).closed
    have hcall := Script.reads_applied hreceiver hrow
    exact (hcall.of_anything _).of_eq (by simp [code]) rfl (by simp [joins])
  | new type args ihargs =>
    obtain ⟨htypeRegular, hargs⟩ := (throughout_new ..).mp hregular
    have hrow := reads_codeEach fun e he => ihargs e he (hargs e he)
    have hcall := Script.reads_applied ((htype htypeRegular).of_ends false) hrow
    have hspaced := Reads.blank.append hcall fun _ _ => trivial
    have hnew := (Script.reads_ascii "new" (by decide)).append hspaced fun rest _ => by
      rintro c ⟨⟩
      exact A.not_blank ' ' (by decide)
    exact (hnew.of_anything _).of_eq (by simp [code, Piece.text]) rfl (by simp [joins])
  | classRef type =>
    have hpath := htype ((throughout_classRef type).mp hregular)
    exact (hpath.of_ends _).of_eq (by simp [code]) rfl (by simp [joins])
  | cast value type ih =>
    obtain ⟨htypeRegular, hvalue⟩ := (throughout_cast ..).mp hregular
    have hhelper := Name.reads_path (hspelling _ hs.languageHelper)
    have hname : A.IsName "as".toList := Alphabet.isName_of_ascii (by decide)
    have htrue : Reads A A.Ends _ _ True := Script.reads_ascii "true" (by decide)
    -- The three arguments, each with its text, its row and when it is clear.
    let args : List (List Char × List Script.Phrase × Prop) :=
      [((value.code s).chars spelling, (value.form s spelling).phrases, value.Throughout (·.joins)),
        ((type.spelled spelling).text.toList, (type.tree spelling).phrases, True),
        ("true".toList, [.atom (.word "true")], True)]
    have hargs : ∀ a ∈ args, Reads A (Follows false) a.1 (flatten a.2.1) a.2.2 := by
      rw [List.forall_mem_cons, List.forall_mem_cons, List.forall_mem_singleton]
      exact ⟨(ih hvalue).closed, (htype htypeRegular).of_ends false, htrue.of_ends false⟩
    have hcall := Script.reads_applied ((Script.reads_access (hhelper.of_ends true) hname).of_ends false)
      (Script.reads_row hargs)
    refine (hcall.of_anything _).of_eq ?_ rfl ?_
    · simp [args, code, Piece.text]
    · simp [args, joins]
  | assign target value ih ihobject ihvalue =>
    obtain ⟨hassign, htarget, hvalue⟩ := (throughout_assign ..).mp hregular
    rcases accessor_or target with ⟨object, name, rfl⟩ | haccessor
    · obtain ⟨hname, hobject⟩ := (throughout_member ..).mp htarget
      have hmember := reads_member (isName_setter hname) (ihobject object name true rfl hobject)
      have hcall := Script.reads_applied hmember.closed (ihvalue hvalue).closed
      exact (hcall.of_anything _).of_eq (by simp [code])
        (by simp [form, Form.phrases, Form.phrasesEach, commas]) (by simp [joins])
    · have hop : Script.operator? "=" = some ⟨"=", .assignment, .leftHand, .assignment⟩ := rfl
      have hplaces := Script.reads_binary hop (ih htarget).closed (ihvalue hvalue).closed
      rw [form_assign s spelling haccessor, code_assign s haccessor]
      exact hplaces.of_eq (by simp [Piece.text]) rfl (by simp [joins])
  | binary op left right ihleft ihright =>
    obtain ⟨⟨o, ho, rfl⟩, hleft, hright⟩ := (throughout_binary ..).mp hregular
    have hoperands := Script.reads_binary (Script.operator?_symbol o (Script.mem_operators ho))
      (reads_parenthesized left.isLooseOperand (ihleft hleft).closed)
      (reads_parenthesized right.isLooseOperand (ihright hright).closed)
    exact hoperands.of_eq (by simp [code, Piece.text]) rfl (by simp [joins])
  | array items ihitems =>
    obtain ⟨-, hitems⟩ := (throughout_array items).mp hregular
    have hrow := reads_codeEach fun e he => ihitems e he (hitems e he)
    have hgroup := Script.reads_group .square (by decide) hrow
    exact (hgroup.of_anything _).of_eq (by simp [code, Script.Bracket.left, Script.Bracket.right]) rfl
      (by simp [joins])

end Expr

end Lowering
