import Lowering.Command

/-! Reading arguments.

Arguments are read in order into items, each a setting with its value, the choice of a
command or an operand. What is set for all commands may stand on either side of the
choice, and behind it takes precedence. Nothing may be set twice on one side. A dash
makes an argument a setting: a value cannot start with one unless it is joined to its
setting. After two dashes every argument is an operand. The first item that ends the
reading decides how: by a request for help or the version, or as a mistake. -/
namespace Lowering

/-- What can be set. -/
inductive Setting where
  | logLevel
  | logFormat
  | color
  | help
  | version
  | outDir
  | config
  | jobs
  | nameStyle
  | noHeader
  | module
  | json
deriving DecidableEq, Repr, Inhabited

/-- How a setting is written. -/
structure Switch where
  setting : Setting
  long : String
  short : Option Char := none
  /-- Followed by a value. -/
  valued : Bool := true
deriving DecidableEq, Repr

/-- The commands by name. -/
inductive Verb where
  | build
  | check
  | deps
deriving DecidableEq, Repr, Inhabited

namespace Verb

def words : List (String × Verb) := [("build", build), ("check", check), ("deps", deps)]

/-- The settings of a command. -/
def switches : Verb → List Switch
  | build => [
      { setting := .outDir, long := "out-dir", short := some 'o' },
      { setting := .config, long := "config", short := some 'c' },
      { setting := .jobs, long := "jobs", short := some 'j' },
      { setting := .nameStyle, long := "name-style" },
      { setting := .noHeader, long := "no-header", valued := false }]
  | check => [{ setting := .config, long := "config", short := some 'c' }]
  | deps => [
      { setting := .module, long := "module", short := some 'm' },
      { setting := .config, long := "config", short := some 'c' },
      { setting := .json, long := "json", valued := false }]

end Verb

namespace Switch

/-- The settings of all commands. -/
def everywhere : List Switch := [
  { setting := .logLevel, long := "log-level" },
  { setting := .logFormat, long := "log-format" },
  { setting := .color, long := "color" },
  { setting := .help, long := "help", short := some 'h', valued := false }]

/-- The settings that are known before and after the choice of a command. -/
def known : Option Verb → List Switch
  | none => { setting := .version, long := "version", short := some 'V', valued := false } :: everywhere
  | some verb => verb.switches ++ everywhere

end Switch

/-! ### Items -/

inductive Item where
  | set (setting : Setting) (value : String)
  | choice (verb : Verb)
  | operand (text : String)
  | mistake
deriving DecidableEq, Repr, Inhabited

/-- What one argument says: items, and perhaps a setting whose value comes next. -/
abbrev Reading := List Item × Option Setting

/-- Reads a setting that stands alone or with a value joined to it. -/
def Switch.read (s : Switch) (joined : Option String) : Reading :=
  match s.valued, joined with
  | true, some value => ([.set s.setting value], none)
  | true, none => ([], some s.setting)
  | false, none => ([.set s.setting ""], none)
  | false, some _ => ([.mistake], none)

/-- Reads what follows two dashes: a name and perhaps a value after an equals sign. -/
def readLong (known : List Switch) (cs : List Char) : Reading :=
  let name := String.ofList (cs.takeWhile (· ≠ '='))
  match known.find? (·.long = name), cs.dropWhile (· ≠ '=') with
  | some s, [] => s.read none
  | some s, _ :: value => s.read (some (String.ofList value))
  | none, _ => ([.mistake], none)

/-- Reads what follows one dash: letters, the last with its value if it has one joined
to it, with or without an equals sign. -/
def readShort (known : List Switch) : List Char → Reading
  | [] => ([], none)
  | c :: rest =>
    match known.find? (·.short = some c) with
    | none => ([.mistake], none)
    | some s =>
      if s.valued then
        match rest with
        | [] => s.read none
        | '=' :: value | value => s.read (some (String.ofList value))
      else
        let (items, awaited) := readShort known rest
        ((s.read none).1 ++ items, awaited)

/-- Whether an argument is a setting: a dash alone is none. -/
def looksLikeSetting (cs : List Char) : Bool := cs.head? = some '-' && cs.length > 1

/-- Whether the arguments of the request for help name at most one command. -/
def helpTopic (topics : List String) : Bool :=
  match topics with
  | [] => true
  | [topic] => topic = "help" || (Verb.words.lookup topic).isSome
  | _ => false

/-- Reads an argument that is no setting: before the choice of a command it is one. -/
def readPlain (verb : Option Verb) (token : String) : Item :=
  match verb with
  | some _ => .operand token
  | none =>
    match Verb.words.lookup token with
    | some verb => .choice verb
    | none => .mistake

/-- The items of arguments. -/
def readItems (verb : Option Verb) : List String → List Item
  | [] => []
  | token :: rest =>
    match verb, token with
    | none, "help" => if helpTopic rest then [.set .help ""] else [.mistake]
    | none, "--" => [.mistake]
    | some _, "--" => rest.map .operand
    | _, _ =>
      if looksLikeSetting token.toList then
        let cs := token.toList.drop 1
        let (items, awaited) :=
          if cs.head? = some '-' then readLong (Switch.known verb) (cs.drop 1)
          else readShort (Switch.known verb) cs
        match awaited, rest with
        | none, rest => items ++ readItems verb rest
        | some _, [] => items ++ [.mistake]
        | some setting, value :: rest =>
          if looksLikeSetting value.toList then items ++ [.mistake]
          else items ++ .set setting value :: readItems verb rest
      else
        match readPlain verb token with
        | .choice verb => .choice verb :: readItems (some verb) rest
        | item => item :: readItems verb rest

/-! ### Values -/

/-- The number that digits below a limit stand for, with or without a plus sign. -/
def count? (limit : Nat) (text : String) : Option Nat :=
  let digits := match text.toList with
    | '+' :: rest => rest
    | cs => cs
  if digits.isEmpty || !digits.all Char.isDigit then none
  else
    let n := digits.foldl (fun n c => 10 * n + (c.toNat - '0'.toNat)) 0
    if n < limit then some n else none

/-- Whether a setting can have a value. -/
def Setting.accepts (value : String) : Setting → Bool
  | outDir | config => !value.isEmpty
  | jobs => (count? UInt64.size value).isSome
  | nameStyle => (NameStyle.words.lookup value).isSome
  | _ => true

/-! ### Commands -/

/-- Why arguments give no command. -/
inductive ArgumentsEnd where
  | help
  | version
  | mistake
deriving DecidableEq, Repr

/-- What items have said so far. -/
structure Gathered where
  verb : Option Verb := none
  /-- What was set before the choice of the command. -/
  before : List (Setting × String) := []
  /-- What was set since, or when there is no choice yet, at all. -/
  here : List (Setting × String) := []
  operand : Option String := none
deriving DecidableEq, Repr, Inhabited

namespace Gathered

variable (g : Gathered)

def take (item : Item) : Except ArgumentsEnd Gathered :=
  match item with
  | .mistake => .error .mistake
  | .set .help _ => .error .help
  | .set .version _ => .error .version
  | .set setting value =>
    if setting.accepts value && (g.here.lookup setting).isNone then
      .ok { g with here := (setting, value) :: g.here }
    else .error .mistake
  | .choice verb => .ok { g with verb := some verb, before := g.here, here := [] }
  | .operand text =>
    if text.isEmpty || g.operand.isSome then .error .mistake
    else .ok { g with operand := some text }

def value? (s : Setting) : Option String := (g.here ++ g.before).lookup s

def isSet (s : Setting) : Bool := (g.value? s).isSome

def action : Verb → Action
  | .build => .build {
      outDir := (g.value? .outDir).map .mk
      jobs := (g.value? .jobs).bind (count? UInt64.size)
      nameStyle := (g.value? .nameStyle).bind fun word => NameStyle.words.lookup word
      omitHeader := g.isSet .noHeader }
  | .check => .check
  | .deps => .deps ((g.value? .module).map .mk) (g.isSet .json)

def invocation? : Option Invocation := do
  return {
    command := {
      action := g.action (← g.verb)
      input := ⟨← g.operand⟩
      config := (g.value? .config).map .mk }
    logLevel := (g.value? .logLevel).getD "warn"
    logFormat := (g.value? .logFormat).getD "compact" }

end Gathered

/-- The command that arguments ask for. -/
def Invocation.parse (arguments : List String) : Except ArgumentsEnd Invocation := do
  let g ← (readItems none arguments).foldlM Gathered.take {}
  match g.invocation? with
  | some invocation => return invocation
  | none => throw .mistake

end Lowering
