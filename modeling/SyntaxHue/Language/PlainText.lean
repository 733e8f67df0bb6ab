import SyntaxHue.Grammar.Store

/-!
# Plain text

The language without rules: its text stays as it is.
-/

namespace SyntaxHue

namespace Language

/-- Registers several names for one language. -/
def addAliases (language : String) (names : List String) (s : Store) :
    Except GrammarError Store :=
  names.foldlM (fun s name => Prod.snd <$> s.addAlias name language) s

/-- Registers plain text and its names. -/
def addPlain (s : Store) : Except GrammarError Store := do
  let (_, s) ← s.define "plain" .empty
  addAliases "plain" ["plaintext", "text", "txt"] s

end Language

end SyntaxHue
