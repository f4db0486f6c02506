import Lowering.Json
import Lowering.Source.Program

/-! Writing programs as JSON.

Every field is written, also one that has its default; what is absent is null, but a
place without a span has no such field. -/
namespace Lowering

/-- The value of an optional part, or null. -/
def Json.orNull {α : Type} (encode : α → Json) : Option α → Json
  | none => .null
  | some a => encode a

def Json.list {α : Type} (encode : α → Json) (items : List α) : Json :=
  .array (items.map encode)

def Json.nat (n : Nat) : Json := .number (.ofNat n)

def Name.encode (n : Name) : Json := Json.text n.text

def TypeRef.encode (t : TypeRef) : Json := Json.text t.text

def NodeKey.encode (k : NodeKey) : Json := Json.nat k.index.toNat

def Visibility.encode (v : Visibility) : Json := Json.text v.word

def Kind.encode (k : Kind) : Json := Json.text k.word

def Span.encode (s : Span) : Json :=
  Json.fields [("start", .nat s.start.toNat), ("end", .nat s.stop.toNat)]

def Location.encode (l : Location) : Json :=
  Json.fields ([("file", Json.text l.file), ("line", .nat l.line.toNat), ("column", .nat l.column.toNat)] ++
    (l.span.map fun s => ("span", s.encode)).toList)

/-- An optional place. -/
def Location.encodeOption (l : Option Location) : Json := Json.orNull encode l

/-- Numbers that are not finite have no JSON form. -/
def Literal.encode : Literal → Json
  | .null => .null
  | .bool b => .bool b
  | .int n => .number (.ofInt n.toInt)
  | .number x => if x.isNaN || x.isInfinite then .null else .number (.ofBinary64 x)
  | .string s => Json.text s

namespace Expr

mutual

def encode : Expr → Json
  | literal value => Json.fields [("expr", Json.text "literal"), ("value", value.encode)]
  | this => Json.fields [("expr", Json.text "this")]
  | ident name => Json.fields [("expr", Json.text "local"), ("name", Json.text name)]
  | member object name accessor =>
    Json.fields [("expr", Json.text "member"), ("object", object.encode), ("name", Json.text name),
      ("accessor", .bool accessor)]
  | staticMember owner name =>
    Json.fields [("expr", Json.text "static_member"), ("class", owner.encode), ("name", Json.text name)]
  | call callee args =>
    Json.fields [("expr", Json.text "call"), ("callee", callee.encode), ("args", .array (encodeAll args))]
  | new type args =>
    Json.fields [("expr", Json.text "new"), ("class", type.encode), ("args", .array (encodeAll args))]
  | classRef type => Json.fields [("expr", Json.text "class_ref"), ("class", type.encode)]
  | cast value type =>
    Json.fields [("expr", Json.text "cast"), ("value", value.encode), ("to", type.encode)]
  | assign target value =>
    Json.fields [("expr", Json.text "assign"), ("target", target.encode), ("value", value.encode)]
  | binary op left right =>
    Json.fields [("expr", Json.text "binary"), ("op", Json.text op), ("left", left.encode),
      ("right", right.encode)]
  | array items => Json.fields [("expr", Json.text "array"), ("items", .array (encodeAll items))]

def encodeAll : List Expr → List Json
  | [] => []
  | e :: rest => e.encode :: encodeAll rest

end

end Expr

def Stmt.encode : Stmt → Json
  | expr value => Json.fields [("stmt", Json.text "expr"), ("expr", value.encode)]
  | var name init =>
    Json.fields [("stmt", Json.text "var"), ("name", Json.text name), ("init", .orNull Expr.encode init)]
  | ret value => Json.fields [("stmt", Json.text "return"), ("value", .orNull Expr.encode value)]

def PropertyValue.encode : PropertyValue → Json
  | .literal value => Json.fields [("kind", Json.text "literal"), ("value", value.encode)]
  | .expression value => Json.fields [("kind", Json.text "expression"), ("value", value.encode)]
  | .node key => Json.fields [("kind", Json.text "node"), ("value", key.encode)]
  | .nodes keys => Json.fields [("kind", Json.text "nodes"), ("value", .list NodeKey.encode keys)]

def Property.encode (p : Property) : Json :=
  Json.fields [("name", Json.text p.name), ("value", p.value.encode)]

def Style.encode (s : Style) : Json :=
  Json.fields [("name", Json.text s.name), ("value", s.value.encode)]

def Node.encode (n : Node) : Json :=
  Json.fields [
    ("key", n.key.encode),
    ("target", n.target.encode),
    ("properties", .list Property.encode n.properties),
    ("styles", .list Style.encode n.styles),
    ("id", Json.textOrNull n.id),
    ("content", .list NodeKey.encode n.content),
    ("location", Location.encodeOption n.location)]

def Tree.encode (t : Tree) : Json :=
  Json.fields [("root", t.root.encode), ("nodes", .list Node.encode t.nodes)]

def Field.encode (f : Field) : Json :=
  Json.fields [
    ("name", Json.text f.name),
    ("type", f.type.encode),
    ("visibility", f.visibility.encode),
    ("is_static", .bool f.isStatic),
    ("initializer", .orNull Expr.encode f.initializer)]

def Accessor.encode (a : Accessor) : Json :=
  Json.fields [
    ("name", Json.text a.name),
    ("type", a.type.encode),
    ("bindable", .bool a.bindable),
    ("visibility", a.visibility.encode),
    ("initializer", .orNull Expr.encode a.initializer)]

def Param.encode (p : Param) : Json :=
  Json.fields [("name", Json.text p.name), ("type", p.type.encode)]

def Method.encode (m : Method) : Json :=
  Json.fields [
    ("name", Json.text m.name),
    ("params", .list Param.encode m.params),
    ("return_type", m.returnType.encode),
    ("visibility", m.visibility.encode),
    ("is_static", .bool m.isStatic),
    ("body", .list Stmt.encode m.body),
    ("location", Location.encodeOption m.location)]

def EventBinding.encode (e : EventBinding) : Json :=
  Json.fields [
    ("node", e.node.encode),
    ("event", Json.text e.event),
    ("event_type", .orNull TypeRef.encode e.eventType),
    ("body", .list Stmt.encode e.body),
    ("location", Location.encodeOption e.location)]

def Alias.encode (a : Alias) : Json :=
  Json.fields [("name", Json.text a.name), ("qualified", a.qualified.encode), ("kind", a.kind.encode)]

def ClassFlags.encode (f : ClassFlags) : Json :=
  Json.fields [("reflectable", .bool f.reflectable), ("aliases", .list Alias.encode f.aliases)]

def ClassDecl.encode (c : ClassDecl) : Json :=
  Json.fields [
    ("name", c.name.encode),
    ("kind", c.kind.encode),
    ("visibility", c.visibility.encode),
    ("base", .orNull Name.encode c.base),
    ("interfaces", .list Name.encode c.interfaces),
    ("fields", .list Field.encode c.fields),
    ("accessors", .list Accessor.encode c.accessors),
    ("methods", .list Method.encode c.methods),
    ("events", .list EventBinding.encode c.events),
    ("declarative", .orNull Tree.encode c.tree),
    ("metadata", c.flags.encode),
    ("location", Location.encodeOption c.location)]

def Declaration.encode (d : Declaration) : Json :=
  Json.fields [
    ("name", d.name.encode),
    ("kind", d.kind.encode),
    ("visibility", d.visibility.encode),
    ("base", .orNull Name.encode d.base),
    ("interfaces", .list Name.encode d.interfaces),
    ("reflectable", .bool d.reflectable),
    ("bindable", .bool d.bindable),
    ("dispatches_events", .bool d.dispatchesEvents),
    ("location", Location.encodeOption d.location)]

def Module.encode (m : Module) : Json :=
  Json.fields [
    ("name", m.name.encode),
    ("source", Json.textOrNull m.source),
    ("imports", .list Name.encode m.imports),
    ("classes", .list ClassDecl.encode m.classes)]

def Program.encode (p : Program) : Json :=
  Json.fields [
    ("externs", .list Declaration.encode p.foreign),
    ("modules", .list Module.encode p.modules)]

end Lowering
