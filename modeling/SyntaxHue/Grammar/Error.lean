import SyntaxHue.Regex.Reader

/-!
# What can be wrong with a grammar
-/

namespace SyntaxHue

/-- Why a grammar cannot be defined or changed. -/
inductive GrammarError where
  /-- A pattern of `kind` is no regular expression. -/
  | invalidPattern (kind source : String) (cause : RegexError)
  | emptyRule (kind : String)
  | unknownLanguage (language : String)
  | unknownKind (kind : String)
  /-- A text does not describe a grammar. -/
  | malformed
deriving DecidableEq, Repr

namespace GrammarError

/-- What the user is told. -/
def message : GrammarError → String
  | invalidPattern kind source _ => "invalid pattern for `" ++ kind ++ "` (" ++ source ++ ")"
  | emptyRule kind => "rule `" ++ kind ++ "` has no patterns"
  | unknownLanguage language => "unknown language `" ++ language ++ "`"
  | unknownKind kind => "grammar has no rule named `" ++ kind ++ "`"
  | malformed => "malformed grammar definition"

end GrammarError

end SyntaxHue
