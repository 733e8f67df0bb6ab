import SyntaxHue.Grammar.Source
import SyntaxHue.Markup.Render
import SyntaxHue.Text.Path

/-!
# Settings

What can be set about a highlighter: how elements look, the longest input that is tokenized, and
the languages it starts with.
-/

namespace SyntaxHue

/-- A file with the definition of a language. -/
structure GrammarFile where
  language : String
  path : String
  /-- The format, if it does not follow from the path. -/
  format? : Option DataFormat := none
deriving DecidableEq, Repr

namespace GrammarFile

/-- The format of the file: as it was stated, or as the extension of the path says. -/
def format (f : GrammarFile) : DataFormat :=
  match f.format? with
  | some given => given
  | none =>
    match Path.extension? f.path with
    | some "yaml" | some "yml" => .yaml
    | _ => .json

end GrammarFile

/-- The languages that a highlighter starts with. -/
structure LanguageSettings where
  /-- Whether the languages that come with the library are there. -/
  builtins : Bool := true
  /-- Other names for languages. -/
  aliases : Table String := .empty
  files : List GrammarFile := []

/-- The settings of a highlighter. -/
structure Settings where
  render : RenderConfig := {}
  /-- Longer inputs, in bytes, are not tokenized. There is no limit if this is 0. -/
  maxInputBytes : Nat := 0
  languages : LanguageSettings := {}

namespace Settings

/-- Whether an input is too long to be tokenized. -/
def isTooLong (s : Settings) (input : String) : Bool :=
  0 < s.maxInputBytes && s.maxInputBytes < input.utf8ByteSize

end Settings

end SyntaxHue
