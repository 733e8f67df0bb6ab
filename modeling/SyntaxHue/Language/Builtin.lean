import SyntaxHue.Language.StyleSheet
import SyntaxHue.Language.Script
import SyntaxHue.Language.Json

/-!
# The languages that come with the library

The order of registration counts: scripts extend the family of C, and style sheets and scripts
add rules to markup.
-/

namespace SyntaxHue

namespace Store

/-- Registers the languages that come with the library. -/
def addBuiltins (s : Store) : Except GrammarError Store := do
  let s ← Language.addPlain s
  let s ← Language.addMarkup s
  let s ← Language.addStyleSheet s
  let s ← Language.addCFamily s
  let s ← Language.addScript s
  Language.addJson s

/-- The store with the languages that come with the library. -/
def builtins : Except GrammarError Store :=
  empty.addBuiltins

end Store

end SyntaxHue
