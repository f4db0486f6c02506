import Lowering.Code.Piece
import Lowering.OrderedMap

/-! Expressions and statements as code.

A member that is an accessor is read and written by calls, and a cast becomes a call of
the runtime's helper. What binds more loosely than its surroundings stands in
parentheses: binary operations and assignments as operands, and these and instantiations
as what a member or a call is taken of. Members that are renamed have their new name
where the class's own instance or the class itself is seen to own them. -/
namespace Lowering

/-- What the code of a class depends on besides the expression itself. -/
structure Scope where
  owner : Name
  /-- The class that performs checked casts. -/
  languageHelper : Name
  /-- New names of members of `this`. -/
  renames : OrderedMap String := .empty
  /-- New names of static members of the owner. -/
  staticRenames : OrderedMap String := .empty
deriving Inhabited

namespace Scope

variable (s : Scope)

/-- The emitted name of a member of `this`. -/
def memberName (name : String) : String := (s.renames.get? name).getD name

/-- The emitted name of a static member of the owner. -/
def staticName (name : String) : String := (s.staticRenames.get? name).getD name

end Scope

namespace Expr

/-- Whether the expression needs parentheses as an operand. -/
def isLooseOperand : Expr → Bool
  | binary .. | assign .. => true
  | _ => false

/-- Whether the expression needs parentheses before a member access or a call. -/
def isLooseReceiver : Expr → Bool
  | binary .. | assign .. | new .. => true
  | _ => false

def parenthesized (needed : Bool) (c : Code) : Code :=
  if needed then c.between "(" ")" else c

/-- The name of a member as it is accessed on an expression. -/
def memberNameOn (s : Scope) : Expr → String → String
  | this, name => s.memberName name
  | _, name => name

/-- The name of a static member as it is accessed on a type. -/
def staticNameOn (s : Scope) : TypeRef → String → String
  | .declared n, name => if n = s.owner then s.staticName name else name
  | .builtin _, name => name

variable (s : Scope)

mutual

def code : Expr → Code
  | literal value => [.verbatim value.render]
  | this => [.verbatim "this"]
  | ident name => [.verbatim name]
  | member object name true =>
    parenthesized object.isLooseReceiver object.code ++
      [.verbatim ("." ++ getterName name ++ "()")]
  | member object name false =>
    parenthesized object.isLooseReceiver object.code ++
      [.verbatim ("." ++ object.memberNameOn s name)]
  | staticMember owner name =>
    owner.code .reference ++ [.verbatim ("." ++ staticNameOn s owner name)]
  | call callee args =>
    parenthesized callee.isLooseReceiver callee.code ++
      Code.between "(" (.joined ", " (codeEach args)) ")"
  | new type args =>
    .verbatim "new " :: type.code .reference ++
      Code.between "(" (.joined ", " (codeEach args)) ")"
  | classRef type => type.code .reference
  | cast value type =>
    [.name .support s.languageHelper, .verbatim ".as("] ++ value.code ++ [.verbatim ", "] ++
      type.code .reference ++ [.verbatim ", true)"]
  | assign (member object name true) value =>
    parenthesized object.isLooseReceiver object.code ++
      Code.between ("." ++ setterName name ++ "(") value.code ")"
  | assign target value => target.code ++ [.verbatim " = "] ++ value.code
  | binary op left right =>
    parenthesized left.isLooseOperand left.code ++ [.verbatim (" " ++ op ++ " ")] ++
      parenthesized right.isLooseOperand right.code
  | array items => Code.between "[" (.joined ", " (codeEach items)) "]"

def codeEach : List Expr → List Code
  | [] => []
  | e :: rest => e.code :: codeEach rest

end

end Expr

/-- A statement, without a line break. -/
def Stmt.code (s : Scope) : Stmt → Code
  | .expr value => value.code s ++ [.verbatim ";"]
  | .var name (some init) => Code.between ("var " ++ name ++ " = ") (init.code s) ";"
  | .var name none => [.verbatim ("var " ++ name ++ ";")]
  | .ret (some value) => Code.between "return " (value.code s) ";"
  | .ret none => [.verbatim "return;"]

end Lowering
