import SyntaxHue.Command.Help
import SyntaxHue.Config.Load
import SyntaxHue.Setup
import SyntaxHue.Token.Dump

/-!
# Carrying out requests

The answer to a request, given the files that can be read: what is printed, and the exit code.
-/

namespace SyntaxHue

namespace Command

/-- What the program prints, and its exit code. -/
structure Answer where
  code : UInt32 := 0
  output : String := ""
  errors : String := ""
deriving DecidableEq, Repr

/-- Why a request fails. -/
inductive Failure where
  | config (cause : Config.Error)
  | setup (cause : SetupError)
  /-- The source code cannot be read. -/
  | source (path : String) (cause : ReadError)
  | unknownLanguage (language : String)
  /-- The source code cannot be tokenized. -/
  | fault (cause : Fault)
deriving DecidableEq, Repr

namespace Failure

/-- What the user is told. -/
def message : Failure → String
  | config cause => cause.message
  | setup cause => cause.message
  | source path cause => "cannot read " ++ path ++ ": " ++ cause.message
  | unknownLanguage language => "unknown language '" ++ language ++ "'"
  | fault .badTrim => "the first group of a match cannot be cut off"
  | fault .crossedGroup => "a group that is referred to ends before it starts"
  | fault .startsBehind => "a match starts before the place that the scan has reached"
  | fault .endless => "a grammar is applied to the same text without end"

/-- The answer to a request that fails. -/
def answer : Failure → Answer
  | fault cause => { code := 101, errors := (fault cause).message ++ "\n" }
  | f => { code := 1, errors := "Error: " ++ f.message ++ "\n" }

end Failure

namespace UsageError

/-- The answer to arguments that are wrong. -/
def answer (e : UsageError) : Answer :=
  { code := 2, errors := "error: " ++ e.message ++ "\n" }

end UsageError

/-- The language of a file: the one that was stated, or what the extension of the path says. -/
def languageFor (stated : Option String) (path : String) : String :=
  match stated with
  | some language => language
  | none =>
    match Path.extension? path with
    | some extension => Config.lower extension
    | none => "plain"

/-- Warns of a language that is not known. -/
def warning (language : String) : String :=
  "Warning: unknown language '" ++ language ++ "', printing escaped text\n"

/-- What the settings are put together from. -/
def sources (config : Option String) : Config.Sources where
  layers := config.toList.map fun name => ⟨name, true⟩

/-- Highlights a file. -/
def highlight (fs : Files) (path : String) (language config : Option String) :
    Except Failure Answer := do
  let settings ← (Config.load fs (sources config)).mapError .config
  let h : Highlighter Unit ← (Highlighter.ofSettings fs settings).mapError .setup
  let source ← (fs.readText path).mapError (.source path)
  let language := languageFor language path
  let (markup, _) ← (h.highlightLanguage source language ()).mapError .fault
  return {
    output := markup ++ "\n"
    errors := if h.store.contains language then "" else warning language }

/-- Prints the token tree of a file. -/
def tokens (fs : Files) (path : String) (language : Option String) : Except Failure Answer := do
  let store ← (Store.initial true).mapError .setup
  let source ← (fs.readText path).mapError (.source path)
  let language := languageFor language path
  match ← (store.tokenizeLanguage source language).mapError .fault with
  | none => throw (.unknownLanguage language)
  | some nodes => return { output := dump nodes ++ "\n" }

/-- Lists the languages. -/
def languages : Except Failure Answer := do
  let store ← (Store.initial true).mapError .setup
  return { output := "Available languages:\n\n" ++
    String.join (store.languages.names.map fun name => "  " ++ name ++ "\n") }

namespace Request

/-- Carries out a request. -/
def answer (fs : Files) (r : Request) : Answer :=
  let result := match r with
    | highlight path language config => Command.highlight fs path language config
    | tokens path language => Command.tokens fs path language
    | languages => Command.languages
    | version => .ok { output := versionText }
    | help topic => .ok { output := Help.text topic }
  match result with
  | .ok a => a
  | .error f => f.answer

/-- The paths of the files that a request needs, as far as the files read so far say. -/
def paths (fs : Files) : Request → List String
  | highlight path _ config =>
    let named := config.toList.flatMap fun name => [name, Path.trimEnd name ++ ".toml"]
    let stated := match Config.load fs (sources config) with
      | .ok settings => settings.languages.files.map GrammarFile.path
      | .error _ => []
    path :: named ++ stated
  | tokens path _ => [path]
  | _ => []

end Request

/-- The answer to the arguments of the program. -/
def run (fs : Files) (arguments : List String) : Answer :=
  match Request.read arguments with
  | .ok request => request.answer fs
  | .error e => e.answer

end Command

end SyntaxHue
