import Lowering.Options
import Lowering.Path
import Lowering.Toml.Reader

/-! Project configuration.

A configuration file is a TOML document with the options of code generation under `emit`
and the output directory as `dir` under `output`. All of it may be left out. The options
have to be valid. -/
namespace Lowering

structure Config where
  options : Options := {}
  /-- Where units are written. -/
  outDir : Path := ⟨"dist"⟩
deriving DecidableEq, Repr, Inhabited

/-- Why the text of a configuration is refused. -/
inductive ConfigError where
  /-- It is no TOML, or a value is not of its type. -/
  | malformed
  | invalid (cause : OptionsError)
deriving DecidableEq, Repr

namespace Config

open Json (Decoder)

/-- A word, or a table that has it as its only key and an empty table or array under it. -/
def styleDecoder : Decoder NameStyle
  | room + 1, .object [(some word, .object [])] => Json.oneOf NameStyle.words room (Json.text word)
  | room + 1, .object [(some word, .array [])] => Json.oneOf NameStyle.words room (Json.text word)
  | room, v => Json.oneOf NameStyle.words room v

/-- Reads a record; an array may hold more than its fields. -/
def firstOf {α : Type} (count : Nat) (d : Decoder α) : Decoder α
  | room, .array items => d room (.array (items.take count))
  | room, v => d room v

def outputDecoder : Decoder Path :=
  firstOf 1 (Json.record ["dir"] fun r =>
    r.orElse "dir" (Json.aString.map Path.mk) ({} : Config).outDir)

def optionsDecoder : Decoder Options :=
  firstOf Options.keys.length (Options.decoderWith styleDecoder)

def decoder : Decoder Config :=
  Json.record ["emit", "output"] fun r => do
    return {
      options := ← r.orElse "emit" optionsDecoder {}
      outDir := ← r.orElse "output" outputDecoder ({} : Config).outDir }

/-- The configuration that a text holds. -/
def parse (text : String) : Except ConfigError Config :=
  match (Toml.parse? text).bind fun entries => decoder.decode (Toml.table .written entries).toJson with
  | none => .error .malformed
  | some config =>
    match config.options.validate with
    | .ok _ => .ok config
    | .error cause => .error (.invalid cause)

end Config

end Lowering
