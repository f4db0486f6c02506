import Lowering.Proofs.Script.Lexing

/-! The grammar of expressions.

Brackets are paired first: a text is a row of phrases, each an atom or what stands between two
brackets. An expression is then an operand, or made of others by brackets, by what trails it (a
name after a point, an index, arguments), by `new`, or by an operator. Each place in it takes
expressions up to a level, and an expression of a lower level binds closer (`Form.Fits`). A call and
a `new` without arguments are not of comparable levels, nor are `&&` and `??`.

What a text means is the expression without its parentheses (`Form.bare`). Left out are forms whose
marks or words nothing here is written with: conditionals, functions, objects, templates, spread
items, increments, assignments that compute, and targets other than names and members. -/
namespace Lowering.Script

/-! ### Phrases -/

/-- An atom, or a pair of brackets with what stands between them. -/
inductive Phrase where
  | atom (a : Atom)
  | group (b : Bracket) (items : List Phrase)

mutual

def Phrase.lexemes : Phrase → List Lexeme
  | .atom a => [.atom a]
  | .group b items => .opening b :: flatten items ++ [.closing b]

def flatten : List Phrase → List Lexeme
  | [] => []
  | p :: rest => p.lexemes ++ flatten rest

end

/-- The row ends, or a bracket closes. -/
def Stops (ls : List Lexeme) : Prop := ∀ l ∈ ls.head?, ∃ b, l = .closing b

theorem stops_nil : Stops [] := nofun

theorem Phrase.not_stops (p : Phrase) (ls : List Lexeme) : ¬Stops (p.lexemes ++ ls) := by
  cases p <;> simp [Phrase.lexemes, Stops]

mutual

/-- What stands in front tells where it ends. -/
theorem Phrase.lexemes_cancel (p q : Phrase) {ls ls' : List Lexeme}
    (h : p.lexemes ++ ls = q.lexemes ++ ls') :
    p = q ∧ ls = ls' := by
  match p, q with
  | .atom a, .atom b => simpa [Phrase.lexemes] using h
  | .atom a, .group b items => simp [Phrase.lexemes] at h
  | .group b items, .atom a => simp [Phrase.lexemes] at h
  | .group b items, .group b' items' =>
    simp only [Phrase.lexemes, List.cons_append, List.append_assoc, List.nil_append, List.cons.injEq,
      Lexeme.opening.injEq] at h
    obtain ⟨rfl, h⟩ := h
    obtain ⟨rfl, hrest⟩ := flatten_cancel items items' (by simp [Stops]) (by simp [Stops]) h
    exact ⟨rfl, (List.cons.inj hrest).2⟩

theorem flatten_cancel (ps qs : List Phrase) {ls ls' : List Lexeme} (hls : Stops ls) (hls' : Stops ls')
    (h : flatten ps ++ ls = flatten qs ++ ls') : ps = qs ∧ ls = ls' := by
  match ps, qs with
  | [], [] => exact ⟨rfl, h⟩
  | [], q :: qs =>
    rw [flatten, flatten, List.nil_append, List.append_assoc] at h
    exact absurd (h ▸ hls) (q.not_stops _)
  | p :: ps, [] =>
    rw [flatten, flatten, List.nil_append, List.append_assoc] at h
    exact absurd (h ▸ hls') (p.not_stops _)
  | p :: ps, q :: qs =>
    rw [flatten, flatten, List.append_assoc, List.append_assoc] at h
    obtain ⟨rfl, hrest⟩ := p.lexemes_cancel q h
    obtain ⟨rfl, hls⟩ := flatten_cancel ps qs hls hls' hrest
    exact ⟨rfl, hls⟩

end

/-- The lexemes of a row tell its phrases. -/
theorem flatten_injective {ps qs : List Phrase} (h : flatten ps = flatten qs) : ps = qs :=
  (flatten_cancel ps qs stops_nil stops_nil (congrArg (· ++ []) h)).1

theorem flatten_append (ps qs : List Phrase) : flatten (ps ++ qs) = flatten ps ++ flatten qs := by
  induction ps with
  | nil => rfl
  | cons p ps ih => rw [List.cons_append, flatten, ih, flatten, List.append_assoc]

/-! ### Levels and operators -/

/-- How closely an expression binds. -/
inductive Level where
  | member
  | call
  /-- A `new` without arguments. -/
  | new
  | leftHand
  | unary
  | power
  | product
  | sum
  | shift
  | relation
  | equality
  | bitAnd
  | bitXor
  | bitOr
  | and
  | or
  | coalesce
  | shortCircuit
  | assignment
  | sequence
deriving DecidableEq, Repr

namespace Level

/-- The place of a level in the order: it is below those that are not less in either number. -/
def place : Level → Nat × Nat
  | member => (0, 0)
  | call => (1, 0)
  | new => (0, 1)
  | leftHand => (1, 1)
  | unary => (2, 2)
  | power => (3, 3)
  | product => (4, 4)
  | sum => (5, 5)
  | shift => (6, 6)
  | relation => (7, 7)
  | equality => (8, 8)
  | bitAnd => (9, 9)
  | bitXor => (10, 10)
  | bitOr => (11, 11)
  | and => (12, 11)
  | or => (13, 11)
  | coalesce => (11, 12)
  | shortCircuit => (13, 12)
  | assignment => (14, 14)
  | sequence => (15, 15)

instance : LE Level := ⟨fun a b => a.place.1 ≤ b.place.1 ∧ a.place.2 ≤ b.place.2⟩

instance (a b : Level) : Decidable (a ≤ b) :=
  inferInstanceAs (Decidable (a.place.1 ≤ b.place.1 ∧ a.place.2 ≤ b.place.2))

theorem le_refl (a : Level) : a ≤ a := ⟨Nat.le_refl _, Nat.le_refl _⟩

theorem le_trans {a b c : Level} (hab : a ≤ b) (hbc : b ≤ c) : a ≤ c :=
  ⟨Nat.le_trans hab.1 hbc.1, Nat.le_trans hab.2 hbc.2⟩

theorem member_le (l : Level) : member ≤ l := ⟨Nat.zero_le _, Nat.zero_le _⟩

end Level

/-- An operator between two expressions: the level of the whole, and up to which levels the
expressions on its two sides may be. -/
structure Operator where
  symbol : String
  own : Level
  left : Level
  right : Level
deriving DecidableEq, Repr

/-- An operator that takes its own level on the left. -/
def Operator.leftward (own tighter : Level) (symbol : String) : Operator := ⟨symbol, own, own, tighter⟩

/-- The binary operators. -/
def binaryOperators : List Operator :=
  ⟨"**", .power, .leftHand, .power⟩ ::
    ["*", "/", "%"].map (.leftward .product .power) ++
    ["+", "-"].map (.leftward .sum .product) ++
    ["<<", ">>", ">>>"].map (.leftward .shift .sum) ++
    ["<", ">", "<=", ">=", "in", "instanceof"].map (.leftward .relation .shift) ++
    ["==", "!=", "===", "!=="].map (.leftward .equality .relation) ++
    [.leftward .bitAnd .equality "&", .leftward .bitXor .bitAnd "^", .leftward .bitOr .bitXor "|",
      .leftward .and .bitOr "&&", .leftward .or .and "||", .leftward .coalesce .bitOr "??"]

/-- These, the assignment and the comma. -/
def operators : List Operator :=
  ⟨"=", .assignment, .leftHand, .assignment⟩ :: .leftward .sequence .assignment "," :: binaryOperators

def operator? (symbol : String) : Option Operator := operators.find? (·.symbol = symbol)

def unaryOperators : List String := ["-", "+", "!", "~", "typeof", "void", "delete"]

/-- The operators that are spelled with letters. -/
def wordOperators : List String := ["in", "instanceof", "typeof", "void", "delete"]

/-- How an operator stands in a text. -/
def operatorAtom (symbol : String) : Atom :=
  if symbol ∈ wordOperators then .word symbol else .mark symbol

theorem of_operator? {op : String} {o : Operator} (h : operator? op = some o) :
    o ∈ operators ∧ o.symbol = op :=
  ⟨List.mem_of_find?_eq_some h, by simpa using List.find?_some h⟩

theorem operator?_symbol : ∀ o ∈ operators, operator? o.symbol = some o := by decide

theorem mem_operators {o : Operator} (h : o ∈ binaryOperators) : o ∈ operators :=
  List.mem_cons_of_mem _ (List.mem_cons_of_mem _ h)

/-! ### Expressions -/

/-- The words that cannot be names. -/
def reserved : List String :=
  ["await", "break", "case", "catch", "class", "const", "continue", "debugger", "default", "delete",
    "do", "else", "enum", "export", "extends", "false", "finally", "for", "function", "if", "import",
    "in", "instanceof", "new", "null", "return", "super", "switch", "this", "throw", "true", "try",
    "typeof", "var", "void", "while", "with", "yield"]

/-- The reserved words that are expressions. -/
def constants : List String := ["this", "null", "true", "false"]

/-- Whether the atom alone is an expression. -/
def Atom.isOperand : Atom → Bool
  | word text => text ∉ reserved || text ∈ constants
  | number _ | string _ => true
  | mark _ => false

/-- An expression as it is written. -/
inductive Form where
  | atom (a : Atom)
  | array (items : List Form)
  | paren (inner : Form)
  /-- A member by its name. -/
  | access (receiver : Form) (name : String)
  | index (receiver place : Form)
  | call (callee : Form) (args : List Form)
  | new (type : Form) (args : List Form)
  /-- A new instance without arguments. -/
  | bareNew (type : Form)
  | unary (op : String) (operand : Form)
  | binary (op : String) (left right : Form)

/-- The rows with commas between them. -/
def commas : List (List Phrase) → List Phrase
  | [] => []
  | row :: rest => row ++ rest.flatMap (.atom (.mark ",") :: ·)

namespace Form

variable {f g : Form}

mutual

def phrases : Form → List Phrase
  | atom a => [.atom a]
  | array items => [.group .square (commas (phrasesEach items))]
  | paren inner => [.group .round inner.phrases]
  | access receiver name => receiver.phrases ++ [.atom (.mark "."), .atom (.word name)]
  | index receiver place => receiver.phrases ++ [.group .square place.phrases]
  | call callee args => callee.phrases ++ [.group .round (commas (phrasesEach args))]
  | new type args => .atom (.word "new") :: type.phrases ++ [.group .round (commas (phrasesEach args))]
  | bareNew type => .atom (.word "new") :: type.phrases
  | unary op operand => .atom (operatorAtom op) :: operand.phrases
  | binary op left right => left.phrases ++ .atom (operatorAtom op) :: right.phrases

def phrasesEach : List Form → List (List Phrase)
  | [] => []
  | f :: rest => f.phrases :: phrasesEach rest

end

theorem phrasesEach_eq (fs : List Form) : phrasesEach fs = fs.map phrases := by
  induction fs with
  | nil => rfl
  | cons f rest ih => rw [phrasesEach, ih, List.map_cons]

/-- The expressions after the first, each behind its comma. -/
def tails (fs : List Form) : List Phrase := (fs.map phrases).flatMap (.atom (.mark ",") :: ·)

theorem tails_cons (f : Form) (fs : List Form) :
    tails (f :: fs) = .atom (.mark ",") :: (f.phrases ++ tails fs) := rfl

theorem commas_phrasesEach_cons (f : Form) (fs : List Form) :
    commas (phrasesEach (f :: fs)) = f.phrases ++ tails fs := by
  rw [phrasesEach_eq, tails, List.map_cons, commas]

theorem phrases_ne_nil (f : Form) : f.phrases ≠ [] := by
  cases f <;> simp [phrases]

/-- With a comma in front of the first expression too, the same rows stay the same. -/
theorem tails_eq_of_commas {fs gs : List Form} (h : commas (phrasesEach fs) = commas (phrasesEach gs)) :
    tails fs = tails gs := by
  have hnone (f : Form) (rest : List Form) : commas (phrasesEach (f :: rest)) ≠ [] := by
    rw [commas_phrasesEach_cons]
    exact fun hnil => f.phrases_ne_nil (List.append_eq_nil_iff.mp hnil).1
  cases fs with
  | nil =>
    cases gs with
    | nil => rfl
    | cons g gs => exact absurd h.symm (hnone g gs)
  | cons f fs =>
    cases gs with
    | nil => exact absurd h (hnone f fs)
    | cons g gs => rw [tails_cons, tails_cons, ← commas_phrasesEach_cons, h, commas_phrasesEach_cons]

mutual

/-- The expression without its parentheses. -/
def bare : Form → Form
  | atom a => atom a
  | array items => array (bareEach items)
  | paren inner => inner.bare
  | access receiver name => access receiver.bare name
  | index receiver place => index receiver.bare place.bare
  | call callee args => call callee.bare (bareEach args)
  | new type args => new type.bare (bareEach args)
  | bareNew type => bareNew type.bare
  | unary op operand => unary op operand.bare
  | binary op left right => binary op left.bare right.bare

def bareEach : List Form → List Form
  | [] => []
  | f :: rest => f.bare :: bareEach rest

end

theorem bareEach_eq (fs : List Form) : bareEach fs = fs.map bare := by
  induction fs with
  | nil => rfl
  | cons f rest ih => rw [bareEach, ih, List.map_cons]

/-- How closely the expression binds. What trails a call binds like the call. -/
def level : Form → Level
  | atom _ | array _ | paren _ | new _ _ => .member
  | access receiver _ | index receiver _ => receiver.level
  | call _ _ => .call
  | bareNew _ => .new
  | unary _ _ => .unary
  | binary op _ _ => (operator? op).elim .sequence (·.own)

/-- Whether the expression can be assigned to. -/
def isTarget : Form → Bool
  | atom (.word text) => text ∉ reserved
  | access _ _ | index _ _ => true
  | paren inner => inner.isTarget
  | _ => false

/-- The productions: which expressions stand where. -/
inductive Fits : Form → Prop
  | atom {a : Atom} (h : a.isOperand = true) : Fits (atom a)
  | array {items : List Form} (h : ∀ f ∈ items, Fits f) (hlevel : ∀ f ∈ items, f.level ≤ .assignment) :
    Fits (array items)
  | paren {inner : Form} (h : Fits inner) : Fits (paren inner)
  | access {receiver : Form} {name : String} (h : Fits receiver) (hlevel : receiver.level ≤ .call) :
    Fits (access receiver name)
  | index {receiver place : Form} (h : Fits receiver) (hlevel : receiver.level ≤ .call)
    (hplace : Fits place) : Fits (index receiver place)
  | call {callee : Form} {args : List Form} (h : Fits callee) (hlevel : callee.level ≤ .call)
    (hargs : ∀ f ∈ args, Fits f) (hargsLevel : ∀ f ∈ args, f.level ≤ .assignment) :
    Fits (call callee args)
  | new {type : Form} {args : List Form} (h : Fits type) (hlevel : type.level ≤ .member)
    (hargs : ∀ f ∈ args, Fits f) (hargsLevel : ∀ f ∈ args, f.level ≤ .assignment) :
    Fits (new type args)
  | bareNew {type : Form} (h : Fits type) (hlevel : type.level ≤ .new) : Fits (bareNew type)
  | unary {op : String} {operand : Form} (hop : op ∈ unaryOperators) (h : Fits operand)
    (hlevel : operand.level ≤ .unary) : Fits (unary op operand)
  | binary {op : String} {left right : Form} {o : Operator} (hop : operator? op = some o)
    (hleft : Fits left) (hright : Fits right) (hleftLevel : left.level ≤ o.left)
    (hrightLevel : right.level ≤ o.right) (htarget : op = "=" → left.isTarget = true) :
    Fits (binary op left right)

theorem level_binary {op : String} {o : Operator} (h : operator? op = some o) (left right : Form) :
    (binary op left right).level = o.own := by
  rw [level, h, Option.elim_some]

section
variable {receiver type : Form} {items : List Form}

theorem fits_paren : (paren f).Fits ↔ f.Fits := by
  constructor
  · rintro ⟨⟩
    assumption
  · exact .paren

theorem fits_array : (array items).Fits ↔ ∀ f ∈ items, f.Fits ∧ f.level ≤ .assignment := by
  constructor
  · rintro ⟨⟩ f hf
    exact ⟨‹∀ f ∈ items, f.Fits› f hf, ‹∀ f ∈ items, f.level ≤ .assignment› f hf⟩
  · exact fun h => .array (fun f hf => (h f hf).1) fun f hf => (h f hf).2

theorem fits_access {name : String} :
    (access receiver name).Fits ↔ receiver.Fits ∧ receiver.level ≤ .call := by
  constructor
  · rintro ⟨⟩
    exact ⟨‹_›, ‹_›⟩
  · exact fun h => .access h.1 h.2

theorem fits_call :
    (call receiver items).Fits ↔
      (receiver.Fits ∧ receiver.level ≤ .call) ∧ ∀ f ∈ items, f.Fits ∧ f.level ≤ .assignment := by
  constructor
  · rintro (_ | _ | _ | _ | _ | ⟨h, hlevel, hargs, hargsLevel⟩)
    exact ⟨⟨h, hlevel⟩, fun f hf => ⟨hargs f hf, hargsLevel f hf⟩⟩
  · exact fun h => .call h.1.1 h.1.2 (fun f hf => (h.2 f hf).1) fun f hf => (h.2 f hf).2

/-- A call of a member. -/
theorem fits_method {name : String} :
    (call (access receiver name) items).Fits ↔
      (receiver.Fits ∧ receiver.level ≤ .call) ∧ ∀ f ∈ items, f.Fits ∧ f.level ≤ .assignment := by
  rw [fits_call, fits_access, level]
  exact and_congr_left' (and_iff_left_of_imp And.right)

theorem fits_new :
    (new type items).Fits ↔
      (type.Fits ∧ type.level ≤ .member) ∧ ∀ f ∈ items, f.Fits ∧ f.level ≤ .assignment := by
  constructor
  · rintro (_ | _ | _ | _ | _ | _ | ⟨h, hlevel, hargs, hargsLevel⟩)
    exact ⟨⟨h, hlevel⟩, fun f hf => ⟨hargs f hf, hargsLevel f hf⟩⟩
  · exact fun h => .new h.1.1 h.1.2 (fun f hf => (h.2 f hf).1) fun f hf => (h.2 f hf).2

theorem fits_binary {op : String} {o : Operator} (hop : operator? op = some o) {left right : Form} :
    (binary op left right).Fits ↔
      (left.Fits ∧ left.level ≤ o.left) ∧ (right.Fits ∧ right.level ≤ o.right) ∧
        (op = "=" → left.isTarget = true) := by
  constructor
  · intro h
    cases h with
    | binary hop' hleft hright hleftLevel hrightLevel htarget =>
      obtain rfl := Option.some.inj (hop.symm.trans hop')
      exact ⟨⟨hleft, hleftLevel⟩, ⟨hright, hrightLevel⟩, htarget⟩
  · exact fun h => .binary hop h.1.1 h.2.1.1 h.1.2 h.2.1.2 h.2.2

end

end Form

/-- The text is an expression, and `tree` is what it is without its parentheses. -/
def Alphabet.Parses (A : Alphabet) (text : String) (tree : Form) : Prop :=
  ∃ f : Form, f.Fits ∧ A.Lexes text.toList (flatten f.phrases) ∧ f.bare = tree

end Lowering.Script
