import SyntaxHue.Config.Key
import SyntaxHue.Files
import SyntaxHue.Settings
import SyntaxHue.Toml.Document

/-!
# Loading settings

Settings are put together from layers: the defaults, then files, then overrides. Of what two
layers set the later counts; tables are merged.
-/

namespace SyntaxHue

namespace Config

/-- Why settings cannot be loaded. -/
inductive Error where
  | missingFile (name : String)
  | malformedFile (name : String)
  | malformedKey (key : String)
  /-- A value is missing or of the wrong kind. -/
  | badSettings
deriving DecidableEq, Repr

namespace Error

/-- What the user is told. -/
def message : Error → String
  | missingFile name => "configuration file \"" ++ name ++ "\" not found"
  | malformedFile name => "configuration file \"" ++ name ++ "\" is malformed"
  | malformedKey key => "malformed key \"" ++ key ++ "\""
  | badSettings => "a setting is missing or of the wrong kind"

end Error

/-- A file with settings. -/
structure Layer where
  name : String
  /-- Whether the file has to be there. -/
  required : Bool
deriving DecidableEq, Repr

/-- What settings are put together from, besides the defaults. -/
structure Sources where
  layers : List Layer := []
  /-- Values under keys. Of two under one key the later counts. -/
  overrides : List (String × Value) := []

/-- The values that hold unless others are set. -/
def defaults : Value :=
  let settings : Settings := {}
  .table [
    .mk "render" (.table [
      .mk "tag" (.text settings.render.tag),
      .mk "class_prefix" (.text settings.render.classPrefix)]),
    .mk "tokenizer" (.table [.mk "max_input_bytes" (.integer settings.maxInputBytes)]),
    .mk "languages" (.table [.mk "builtins" (.bool settings.languages.builtins)])]

/-- The bytes of the file that a layer names, with or without the ending `.toml`. -/
def find? (fs : Files) (name : String) : Option ByteArray :=
  match fs.read name with
  | .ok bytes => some bytes
  | .error _ =>
    match Path.fileName? name with
    | none => none
    | some _ => (fs.read (Path.trimEnd name ++ ".toml")).toOption

/-- Sets the values of a file. -/
def addEntries (v : Value) : List Entry → Option Value
  | [] => some v
  | .mk key value :: entries => do addEntries (← value.setKey? key v) entries

/-- Sets the values of a layer. -/
def addLayer (fs : Files) (v : Value) (layer : Layer) : Except Error Value :=
  match find? fs layer.name with
  | none => if layer.required then .error (.missingFile layer.name) else .ok v
  | some bytes =>
    match (Toml.read (Decoding.decode bytes)).bind (addEntries v) with
    | some v => .ok v
    | none => .error (.malformedFile layer.name)

/-- Sets an override. -/
def addOverride (v : Value) (override : String × Value) : Except Error Value :=
  match (Key.read? override.1).bind fun steps => override.2.set? steps v with
  | some v => .ok v
  | none => .error (.malformedKey override.1)

namespace Value

/-- The parts of a value with named parts, in order; a list has them without names. -/
def parts? (names : List String) : Value → Option (List (Option Value))
  | .table entries => some (names.map fun name => Entry.find? name entries)
  | .list items => some ((List.range names.length).map fun i => items[i]?)
  | _ => none

/-- The format with a name, in any case. -/
def formatOfName? (name : String) : Option DataFormat :=
  match lower name with
  | "json" => some .json
  | "yaml" => some .yaml
  | _ => none

/-- The format that a value names. -/
def format? : Value → Option DataFormat
  | .text name => formatOfName? name
  | .table [.mk name _] => formatOfName? name
  | _ => none

/-- The format that is stated, if one is. -/
def optionalFormat? : Option Value → Option (Option DataFormat)
  | none | some .missing => some none
  | some v => some <$> v.format?

/-- How elements look. -/
def render? (v : Value) : Option RenderConfig := do
  let [some tag, some classPrefix] ← v.parts? ["tag", "class_prefix"] | none
  return ⟨← tag.text?, ← classPrefix.text?⟩

/-- The longest input that is tokenized. -/
def maxInputBytes? (v : Value) : Option Nat := do
  let [some bytes] ← v.parts? ["max_input_bytes"] | none
  bytes.size?

/-- A file with the definition of a language. -/
def grammarFile? (v : Value) : Option GrammarFile := do
  let [some name, some path, format] ← v.parts? ["name", "path", "format"] | none
  return ⟨← name.text?, ← path.text?, ← optionalFormat? format⟩

/-- Files with definitions. There are none if they are not stated. -/
def grammarFiles? : Option Value → Option (List GrammarFile)
  | none => some []
  | some (.list items) => items.mapM grammarFile?
  | _ => none

/-- Other names for languages. There are none if they are not stated. -/
def aliases? : Option Value → Option (Table String)
  | none => some .empty
  | some (.table entries) => do
    let entries ← entries.mapM fun e => e.value.text?.map fun language => (e.key, language)
    return .ofList entries
  | _ => none

/-- The languages that a highlighter starts with. -/
def languages? (v : Value) : Option LanguageSettings := do
  let [some builtins, aliases, files] ← v.parts? ["builtins", "aliases", "extra"] | none
  return ⟨← builtins.bool?, ← aliases? aliases, ← grammarFiles? files⟩

/-- The settings that a value describes. -/
def settings? (v : Value) : Option Settings := do
  let [some render, some tokenizer, some languages] ←
    v.parts? ["render", "tokenizer", "languages"] | none
  return ⟨← render.render?, ← tokenizer.maxInputBytes?, ← languages.languages?⟩

end Value

/-- Loads settings. -/
def load (fs : Files) (sources : Sources) : Except Error Settings := do
  let v ← sources.layers.foldlM (addLayer fs) defaults
  let v ← sources.overrides.foldlM addOverride v
  match v.settings? with
  | some settings => .ok settings
  | none => .error .badSettings

end Config

end SyntaxHue
