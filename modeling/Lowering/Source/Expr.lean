import Lowering.Literal
import Lowering.TypeRef

/-! Expressions and statements.

Type checking is done: a member is known to be a plain field or an accessor, a cast
names its target, and classes are fully qualified. The classes that an expression
refers to are listed in the order in which evaluation meets them. -/
namespace Lowering

/-- A typed expression. -/
inductive Expr where
  | literal (value : Literal)
  /-- The instance whose code this is. -/
  | this
  /-- A local variable or a parameter. -/
  | ident (name : String)
  /-- A member of an instance; an accessor is read and written by calls. -/
  | member (object : Expr) (name : String) (accessor : Bool)
  | staticMember (owner : TypeRef) (name : String)
  | call (callee : Expr) (args : List Expr)
  /-- A new instance. -/
  | new (type : TypeRef) (args : List Expr)
  /-- A type used as a value. -/
  | classRef (type : TypeRef)
  /-- A checked downcast. -/
  | cast (value : Expr) (type : TypeRef)
  | assign (target value : Expr)
  | binary (op : String) (left right : Expr)
  | array (items : List Expr)
deriving Repr, Inhabited

namespace Expr

mutual

/-- Every class the expression refers to, in evaluation order. -/
def references : Expr → List Name
  | literal _ | this | ident _ => []
  | member object _ _ => object.references
  | staticMember owner _ => owner.declared?.toList
  | call callee args => callee.references ++ referencesAll args
  | new type args => type.declared?.toList ++ referencesAll args
  | classRef type => type.declared?.toList
  | cast value type => value.references ++ type.declared?.toList
  | assign target value => target.references ++ value.references
  | binary _ left right => left.references ++ right.references
  | array items => referencesAll items

/-- The references of several expressions, one after the other. -/
def referencesAll : List Expr → List Name
  | [] => []
  | e :: rest => e.references ++ referencesAll rest

end

mutual

/-- Whether a cast stands anywhere in the expression. -/
def hasCast : Expr → Bool
  | literal _ | this | ident _ | staticMember _ _ | classRef _ => false
  | cast _ _ => true
  | member object _ _ => object.hasCast
  | call callee args => callee.hasCast || hasCastAny args
  | new _ args => hasCastAny args
  | assign target value => target.hasCast || value.hasCast
  | binary _ left right => left.hasCast || right.hasCast
  | array items => hasCastAny items

/-- Whether a cast stands in one of several expressions. -/
def hasCastAny : List Expr → Bool
  | [] => false
  | e :: rest => e.hasCast || hasCastAny rest

end

end Expr

/-- A statement of a method or of an event handler. -/
inductive Stmt where
  | expr (value : Expr)
  /-- A local variable with an optional initial value. -/
  | var (name : String) (init : Option Expr)
  | ret (value : Option Expr)
deriving Repr, Inhabited

/-- The expression that the statement holds, if it holds one. -/
def Stmt.expr? : Stmt → Option Expr
  | .expr value => some value
  | .var _ init => init
  | .ret value => value

end Lowering
