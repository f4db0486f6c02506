import Lowering.Json.Decode
import Lowering.Name.Mangling
import Lowering.Source.Decode
import Lowering.Source.Encode
import Lowering.Text.Alphabetic

/-! Options of code generation.

The names of the runtime's functions and classes that generated code uses, the style of
output names, and switches. Every option has a default. The runtime names have to be
identifiers joined by dots; the first that is not is refused. -/
namespace Lowering

/-- How a qualified name becomes an identifier of the generated code. -/
inductive NameStyle where
  /-- As it is. -/
  | dotted
  /-- With an underscore for each dot. -/
  | flattened
deriving DecidableEq, Repr, Inhabited

def NameStyle.word : NameStyle → String
  | .dotted => "dotted"
  | .flattened => "flattened"

def NameStyle.words : List (String × NameStyle) :=
  [("dotted", .dotted), ("flattened", .flattened)]

/-- The identifier of a name that stands for itself alone. -/
def NameStyle.plain (style : NameStyle) (n : Name) : String :=
  match style with
  | .dotted => n.text
  | .flattened => n.flat

structure Options where
  nameStyle : NameStyle := .dotted
  /-- The function that declares what a module provides. -/
  provideFn : String := "goog.provide"
  /-- The function that declares what a module requires. -/
  requireFn : String := "goog.require"
  /-- The function that links a class to its base. -/
  inheritsFn : String := "goog.inherits"
  /-- The function that keeps a class from being renamed. -/
  exportSymbolFn : String := "goog.exportSymbol"
  /-- The method that receives the encoded tree. -/
  graphBuilder : String := "generateMXMLAttributes"
  /-- What the names of the metadata members start with. -/
  metadataPrefix : String := "ROYALE"
  /-- The class that builds change notifications. -/
  changeEventClass : Name := ⟨"org.apache.royale.events.ValueChangeEvent"⟩
  /-- The class that performs checked casts. -/
  languageHelper : Name := ⟨"org.apache.royale.utils.Language"⟩
  /-- Private members carry their owner's name. -/
  mangledPrivates : Bool := false
  /-- Reflection lists private and synthesized members too. -/
  reflectPrivate : Bool := false
  /-- Reflectable classes are exported. -/
  exportReflectable : Bool := true
  /-- Modules start with a header comment. -/
  fileOverview : Bool := true
  /-- How many classes are emitted at a time, zero for one per processor. -/
  jobs : Nat := 0
deriving DecidableEq, Repr, Inhabited

/-- Why options are refused. -/
inductive OptionsError where
  | empty (field : String)
  | invalidIdentifier (field value : String)
deriving DecidableEq, Repr

def OptionsError.message : OptionsError → String
  | .empty field => "Option '" ++ field ++ "' must not be empty"
  | .invalidIdentifier field value =>
    "Option '" ++ field ++ "' is not a valid identifier path: " ++ value

/-- Whether a part of an identifier path is an identifier: a letter, an underscore or a
dollar sign, and then any of these and numbers. -/
def isIdentifier : List Char → Bool
  | [] => false
  | c :: rest =>
    (Text.isAlphabetic c || c = '_' || c = '$') &&
      rest.all fun d => Text.isAlphanumeric d || d = '_' || d = '$'

/-- Identifiers joined by dots. -/
def isIdentifierPath (s : String) : Bool := (Name.splitDots s.toList).all isIdentifier

namespace Options

def classInfoMember (o : Options) : String := o.metadataPrefix ++ "_CLASS_INFO"

def reflectionMember (o : Options) : String := o.metadataPrefix ++ "_REFLECTION_INFO"

/-- The options that have to be identifier paths, by field name. -/
def paths (o : Options) : List (String × String) := [
  ("provide_fn", o.provideFn),
  ("require_fn", o.requireFn),
  ("inherits_fn", o.inheritsFn),
  ("export_symbol_fn", o.exportSymbolFn),
  ("graph_builder", o.graphBuilder),
  ("metadata_prefix", o.metadataPrefix),
  ("change_event_class", o.changeEventClass.text),
  ("language_helper", o.languageHelper.text)]

def checkPath (field value : String) : Except OptionsError Unit :=
  if value.isEmpty then .error (.empty field)
  else if isIdentifierPath value then .ok ()
  else .error (.invalidIdentifier field value)

/-- Checks every runtime name, in order. -/
def validate (o : Options) : Except OptionsError Unit :=
  o.paths.forM fun (field, value) => checkPath field value

/-! ### JSON form -/

def keys : List String :=
  ["name_style", "provide_fn", "require_fn", "inherits_fn", "export_symbol_fn", "graph_builder",
    "metadata_prefix", "change_event_class", "language_helper", "allow_private_name_conflicts",
    "reflect_private", "export_reflectable", "emit_file_overview", "jobs"]

/-- Reads options whose name style is read by `style`; every option may be left out. -/
def decoderWith (style : Json.Decoder NameStyle) : Json.Decoder Options :=
  Json.record keys fun r => do
    let o : Options := {}
    return {
      nameStyle := ← r.orElse "name_style" style o.nameStyle
      provideFn := ← r.orElse "provide_fn" Json.aString o.provideFn
      requireFn := ← r.orElse "require_fn" Json.aString o.requireFn
      inheritsFn := ← r.orElse "inherits_fn" Json.aString o.inheritsFn
      exportSymbolFn := ← r.orElse "export_symbol_fn" Json.aString o.exportSymbolFn
      graphBuilder := ← r.orElse "graph_builder" Json.aString o.graphBuilder
      metadataPrefix := ← r.orElse "metadata_prefix" Json.aString o.metadataPrefix
      changeEventClass := ← r.orElse "change_event_class" Name.decoder o.changeEventClass
      languageHelper := ← r.orElse "language_helper" Name.decoder o.languageHelper
      mangledPrivates := ← r.orElse "allow_private_name_conflicts" Json.aBool o.mangledPrivates
      reflectPrivate := ← r.orElse "reflect_private" Json.aBool o.reflectPrivate
      exportReflectable := ← r.orElse "export_reflectable" Json.aBool o.exportReflectable
      fileOverview := ← r.orElse "emit_file_overview" Json.aBool o.fileOverview
      jobs := ← r.orElse "jobs" (Json.aNat UInt64.size) o.jobs }

def decoder : Json.Decoder Options := decoderWith (Json.choice NameStyle.words)

def encode (o : Options) : Json :=
  Json.fields [
    ("name_style", Json.text o.nameStyle.word),
    ("provide_fn", Json.text o.provideFn),
    ("require_fn", Json.text o.requireFn),
    ("inherits_fn", Json.text o.inheritsFn),
    ("export_symbol_fn", Json.text o.exportSymbolFn),
    ("graph_builder", Json.text o.graphBuilder),
    ("metadata_prefix", Json.text o.metadataPrefix),
    ("change_event_class", o.changeEventClass.encode),
    ("language_helper", o.languageHelper.encode),
    ("allow_private_name_conflicts", .bool o.mangledPrivates),
    ("reflect_private", .bool o.reflectPrivate),
    ("export_reflectable", .bool o.exportReflectable),
    ("emit_file_overview", .bool o.fileOverview),
    ("jobs", .nat o.jobs)]

end Options

end Lowering
