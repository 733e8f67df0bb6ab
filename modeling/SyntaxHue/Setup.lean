import SyntaxHue.Files
import SyntaxHue.Highlighter
import SyntaxHue.Language.Builtin

/-!
# Highlighters from settings

A highlighter starts with the languages that its settings ask for: those that come with the
library, then those in files, then other names for languages, each in the order of the settings.
-/

namespace SyntaxHue

/-- Why a highlighter cannot be set up. -/
inductive SetupError where
  | grammar (cause : GrammarError)
  /-- The file of a language cannot be read. -/
  | file (path : String) (cause : ReadError)
deriving DecidableEq, Repr

namespace SetupError

/-- What the user is told. -/
def message : SetupError → String
  | grammar cause => cause.message
  | file path _ => "failed to read grammar file " ++ path

end SetupError

namespace Store

/-- The store before languages from files are added. -/
def initial (builtin : Bool) : Except SetupError Store :=
  if builtin then Store.builtins.mapError .grammar else .ok .empty

/-- Defines the language of a file. -/
def addFile (fs : Files) (s : Store) (file : GrammarFile) : Except SetupError Store := do
  let source ← (fs.readText file.path).mapError (.file file.path)
  let (_, s) ← (s.load file.format file.language source).mapError .grammar
  return s

/-- Adds a name for a language. -/
def addName (s : Store) (entry : String × String) : Except SetupError Store := do
  let (_, s) ← (s.addAlias entry.1 entry.2).mapError .grammar
  return s

/-- The store with the languages that settings ask for. -/
def ofSettings (fs : Files) (settings : LanguageSettings) : Except SetupError Store := do
  let s ← initial settings.builtins
  let s ← settings.files.foldlM (addFile fs) s
  settings.aliases.entries.foldlM addName s

end Store

namespace Highlighter

/-- A highlighter with the languages that come with the library. -/
def default {σ : Type} : Except SetupError (Highlighter σ) := do
  return { store := ← Store.initial true }

/-- The highlighter that settings ask for. -/
def ofSettings {σ : Type} (fs : Files) (settings : Settings) :
    Except SetupError (Highlighter σ) := do
  return { store := ← Store.ofSettings fs settings.languages, settings }

end Highlighter

end SyntaxHue
