import SyntaxHue.Language.PlainText

/-!
# JSON

Keys and strings are told apart by the colon that follows a key.
-/

namespace SyntaxHue

namespace Language

/-- The grammar of JSON. -/
def json : GrammarDef := .ofRules
  [.mk "property"
    [.mk { source := "(^|[^\\\\])\"(?:\\\\.|[^\\\\\"\\r\\n])*\"(?=\\s*:)",
           lookbehind := true, greedy := true } .none],
   .mk "string"
    [.mk { source := "(^|[^\\\\])\"(?:\\\\.|[^\\\\\"\\r\\n])*\"(?!\\s*:)",
           lookbehind := true, greedy := true } .none],
   .mk "comment"
    [.mk { source := "//.*|/\\*[\\s\\S]*?(?:\\*/|$)", greedy := true } .none],
   .mk "number" [.plain "(?i)-?\\b\\d+(?:\\.\\d+)?(?:e[+-]?\\d+)?\\b"],
   .mk "punctuation" [.plain "[\x7b\x7d\\[\\],]"],
   .mk "operator" [.plain ":"],
   .mk "boolean" [.plain "\\b(?:false|true)\\b"],
   .mk "null" [.mk { source := "\\bnull\\b", aliases := ["keyword"] } .none]]
  none

/-- Registers JSON and its other name. -/
def addJson (s : Store) : Except GrammarError Store := do
  let (_, s) ← s.define "json" json
  addAliases "json" ["webmanifest"] s

end Language

end SyntaxHue
