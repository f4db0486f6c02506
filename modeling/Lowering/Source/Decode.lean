import Lowering.Json.Reader
import Lowering.Json.Decode
import Lowering.Source.Program

/-! Reading programs from JSON.

Every declaration is a record whose fields have the names of the format. Expressions
and statements carry their variant under the keys `expr` and `stmt`; the value of a
property stands under `value` beside its `kind`. -/
namespace Lowering

open Json (Decoder Record record listOf choice aBool aString aUInt32)

/-! ### Names, types and places -/

def Name.decoder : Decoder Name := aString.map .mk

def TypeRef.decoder : Decoder TypeRef := aString.map .ofText

def NodeKey.decoder : Decoder NodeKey := aUInt32.map .mk

def Visibility.decoder : Decoder Visibility :=
  choice [("public", .everyone), ("internal", .package), ("protected", .subclasses),
    ("private", .owner)]

def Kind.decoder : Decoder Kind :=
  choice [("class", .concrete), ("interface", .interface)]

def Span.decoder : Decoder Span :=
  record ["start", "end"] fun r => do
    return { start := ← r.required "start" aUInt32, stop := ← r.required "end" aUInt32 }

def Location.decoder : Decoder Location :=
  record ["file", "line", "column", "span"] fun r => do
    return {
      file := ← r.required "file" aString
      line := ← r.required "line" aUInt32
      column := ← r.required "column" aUInt32
      span := ← r.optional "span" Span.decoder }

/-! ### Literals -/

/-- An integer that 64 bits hold stands for itself; every other number is the nearest
floating-point number. -/
def Literal.ofNumeral? (n : Numeral) : Option Literal :=
  match n.toInt?.bind Literal.ofInt? with
  | some l => some l
  | none => n.toBinary64?.map .number

def Literal.decoder : Decoder Literal
  | _, .null => some .null
  | _, .bool b => some (.bool b)
  | _, .number n => Literal.ofNumeral? n
  | _, .string s => s.map .string
  | _, _ => none

/-! ### Expressions and statements -/

namespace Expr

def variants : List String :=
  ["literal", "this", "local", "member", "static_member", "call", "new", "class_ref", "cast",
    "assign", "binary", "array"]

/-- Reads an expression that was found sound; `inner` tells whether it stands within
another value that was read as a whole. -/
def read : (room : Nat) → (inner : Bool) → Json → Option Expr
  | 0, _, _ => none
  | room + 1, inner, v => do
    let (variant, body) ← Json.tagged? "expr" inner variants v
    let part : Decoder Expr := fun _ => read room true
    let fields (keys : List String) (build : Record → Option Expr) : Option Expr :=
      record keys build Json.nestingLimit body
    match variant with
    | "literal" => fields ["value"] fun r => do
      return .literal (← r.required "value" Literal.decoder)
    | "this" => do
      Json.noFields body
      return .this
    | "local" => fields ["name"] fun r => do
      return .ident (← r.required "name" aString)
    | "member" => fields ["object", "name", "accessor"] fun r => do
      return .member (← r.required "object" part) (← r.required "name" aString)
        (← r.orElse "accessor" aBool false)
    | "static_member" => fields ["class", "name"] fun r => do
      return .staticMember (← r.required "class" TypeRef.decoder) (← r.required "name" aString)
    | "call" => fields ["callee", "args"] fun r => do
      return .call (← r.required "callee" part) (← r.orElse "args" (listOf part) [])
    | "new" => fields ["class", "args"] fun r => do
      return .new (← r.required "class" TypeRef.decoder) (← r.orElse "args" (listOf part) [])
    | "class_ref" => fields ["class"] fun r => do
      return .classRef (← r.required "class" TypeRef.decoder)
    | "cast" => fields ["value", "to"] fun r => do
      return .cast (← r.required "value" part) (← r.required "to" TypeRef.decoder)
    | "assign" => fields ["target", "value"] fun r => do
      return .assign (← r.required "target" part) (← r.required "value" part)
    | "binary" => fields ["op", "left", "right"] fun r => do
      return .binary (← r.required "op" aString) (← r.required "left" part)
        (← r.required "right" part)
    | "array" => fields ["items"] fun r => do
      return .array (← r.orElse "items" (listOf part) [])
    | _ => none

/-- Reads an expression, within another value that was read as a whole or not. -/
def decoderWithin (inner : Bool) : Decoder Expr :=
  fun room v => if v.isSound room then read room inner v else none

def decoder : Decoder Expr := decoderWithin false

end Expr

namespace Stmt

def variants : List String := ["expr", "var", "return"]

def read (room : Nat) (v : Json) : Option Stmt := do
  let (variant, body) ← Json.tagged? "stmt" false variants v
  let part : Decoder Expr := fun _ => Expr.read room true
  let fields (keys : List String) (build : Record → Option Stmt) : Option Stmt :=
    record keys build Json.nestingLimit body
  match variant with
  | "expr" => fields ["expr"] fun r => do
    return .expr (← r.required "expr" part)
  | "var" => fields ["name", "init"] fun r => do
    return .var (← r.required "name" aString) (← r.optional "init" part)
  | "return" => fields ["value"] fun r => do
    return .ret (← r.optional "value" part)
  | _ => none

def decoder : Decoder Stmt :=
  fun room v => if v.isSound room then read room v else none

end Stmt

/-! ### Trees -/

namespace PropertyValue

/-- Reads the value of a property of some kind; `inner` tells whether it was read as a
whole before its kind was known. -/
def valueDecoder (inner : Bool) : String → Decoder PropertyValue
  | "literal" => Literal.decoder.map .literal
  | "expression" => (Expr.decoderWithin inner).map .expression
  | "node" => NodeKey.decoder.map .node
  | "nodes" => (listOf NodeKey.decoder).map .nodes
  | _ => fun _ _ => none

def kinds : List (String × String) :=
  ["literal", "expression", "node", "nodes"].map fun k => (k, k)

/-- The kind and the value of a property, in the order in which they are written. -/
def parts? : Json → Option (List (String × Json))
  | .array [kind, value] => some [("kind", kind), ("value", value)]
  | .object entries => do
    return (← Json.textKeys? entries).filter fun (key, _) => key = "kind" || key = "value"
  | _ => none

def decoder : Decoder PropertyValue
  | 0, _ => none
  | room + 1, v => do
    match ← parts? v with
    | [("kind", kind), ("value", value)] =>
      valueDecoder false (← choice kinds room kind) room value
    | [("value", value), ("kind", kind)] =>
      valueDecoder true (← choice kinds room kind) room value
    | _ => none

end PropertyValue

def Property.decoder : Decoder Property :=
  record ["name", "value"] fun r => do
    return { name := ← r.required "name" aString, value := ← r.required "value" PropertyValue.decoder }

def Style.decoder : Decoder Style :=
  record ["name", "value"] fun r => do
    return { name := ← r.required "name" aString, value := ← r.required "value" Literal.decoder }

def Node.decoder : Decoder Node :=
  record ["key", "target", "properties", "styles", "id", "content", "location"] fun r => do
    return {
      key := ← r.required "key" NodeKey.decoder
      target := ← r.required "target" Name.decoder
      properties := ← r.orElse "properties" (listOf Property.decoder) []
      styles := ← r.orElse "styles" (listOf Style.decoder) []
      id := ← r.optional "id" aString
      content := ← r.orElse "content" (listOf NodeKey.decoder) []
      location := ← r.optional "location" Location.decoder }

def Tree.decoder : Decoder Tree :=
  record ["root", "nodes"] fun r => do
    return {
      root := ← r.required "root" NodeKey.decoder
      nodes := ← r.required "nodes" (listOf Node.decoder) }

/-! ### Classes -/

def Field.decoder : Decoder Field :=
  record ["name", "type", "visibility", "is_static", "initializer"] fun r => do
    return {
      name := ← r.required "name" aString
      type := ← r.required "type" TypeRef.decoder
      visibility := ← r.orElse "visibility" Visibility.decoder .everyone
      isStatic := ← r.orElse "is_static" aBool false
      initializer := ← r.optional "initializer" Expr.decoder }

def Accessor.decoder : Decoder Accessor :=
  record ["name", "type", "bindable", "visibility", "initializer"] fun r => do
    return {
      name := ← r.required "name" aString
      type := ← r.required "type" TypeRef.decoder
      bindable := ← r.orElse "bindable" aBool false
      visibility := ← r.orElse "visibility" Visibility.decoder .everyone
      initializer := ← r.optional "initializer" Expr.decoder }

def Param.decoder : Decoder Param :=
  record ["name", "type"] fun r => do
    return { name := ← r.required "name" aString, type := ← r.required "type" TypeRef.decoder }

def Method.decoder : Decoder Method :=
  record ["name", "params", "return_type", "visibility", "is_static", "body", "location"] fun r => do
    return {
      name := ← r.required "name" aString
      params := ← r.orElse "params" (listOf Param.decoder) []
      returnType := ← r.orElse "return_type" TypeRef.decoder .void
      visibility := ← r.orElse "visibility" Visibility.decoder .everyone
      isStatic := ← r.orElse "is_static" aBool false
      body := ← r.orElse "body" (listOf Stmt.decoder) []
      location := ← r.optional "location" Location.decoder }

def EventBinding.decoder : Decoder EventBinding :=
  record ["node", "event", "event_type", "body", "location"] fun r => do
    return {
      node := ← r.required "node" NodeKey.decoder
      event := ← r.required "event" aString
      eventType := ← r.optional "event_type" TypeRef.decoder
      body := ← r.orElse "body" (listOf Stmt.decoder) []
      location := ← r.optional "location" Location.decoder }

def Alias.decoder : Decoder Alias :=
  record ["name", "qualified", "kind"] fun r => do
    return {
      name := ← r.required "name" aString
      qualified := ← r.required "qualified" Name.decoder
      kind := ← r.orElse "kind" Kind.decoder .concrete }

def ClassFlags.decoder : Decoder ClassFlags :=
  record ["reflectable", "aliases"] fun r => do
    return {
      reflectable := ← r.orElse "reflectable" aBool true
      aliases := ← r.orElse "aliases" (listOf Alias.decoder) [] }

def ClassDecl.decoder : Decoder ClassDecl :=
  record ["name", "kind", "visibility", "base", "interfaces", "fields", "accessors", "methods",
      "events", "declarative", "metadata", "location"] fun r => do
    return {
      name := ← r.required "name" Name.decoder
      kind := ← r.orElse "kind" Kind.decoder .concrete
      visibility := ← r.orElse "visibility" Visibility.decoder .everyone
      base := ← r.optional "base" Name.decoder
      interfaces := ← r.orElse "interfaces" (listOf Name.decoder) []
      fields := ← r.orElse "fields" (listOf Field.decoder) []
      accessors := ← r.orElse "accessors" (listOf Accessor.decoder) []
      methods := ← r.orElse "methods" (listOf Method.decoder) []
      events := ← r.orElse "events" (listOf EventBinding.decoder) []
      tree := ← r.optional "declarative" Tree.decoder
      flags := ← r.orElse "metadata" ClassFlags.decoder {}
      location := ← r.optional "location" Location.decoder }

/-! ### Programs -/

def Declaration.decoder : Decoder Declaration :=
  record ["name", "kind", "visibility", "base", "interfaces", "reflectable", "bindable",
      "dispatches_events", "location"] fun r => do
    return {
      name := ← r.required "name" Name.decoder
      kind := ← r.orElse "kind" Kind.decoder .concrete
      visibility := ← r.orElse "visibility" Visibility.decoder .everyone
      base := ← r.optional "base" Name.decoder
      interfaces := ← r.orElse "interfaces" (listOf Name.decoder) []
      reflectable := ← r.orElse "reflectable" aBool false
      bindable := ← r.orElse "bindable" aBool false
      dispatchesEvents := ← r.orElse "dispatches_events" aBool false
      location := ← r.optional "location" Location.decoder }

def Module.decoder : Decoder Module :=
  record ["name", "source", "imports", "classes"] fun r => do
    return {
      name := ← r.required "name" Name.decoder
      source := ← r.optional "source" aString
      imports := ← r.orElse "imports" (listOf Name.decoder) []
      classes := ← r.orElse "classes" (listOf ClassDecl.decoder) [] }

def Program.decoder : Decoder Program :=
  record ["externs", "modules"] fun r => do
    return {
      foreign := ← r.orElse "externs" (listOf Declaration.decoder) []
      modules := ← r.orElse "modules" (listOf Module.decoder) [] }

/-- Reads a program from the text of a JSON file. -/
def Program.parse? (text : String) : Option Program :=
  (Json.parse? text).bind Program.decoder.decode

end Lowering
