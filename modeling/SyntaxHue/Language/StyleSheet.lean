import SyntaxHue.Language.Markup
import SyntaxHue.Language.Quoted

/-!
# Style sheets

The grammar of CSS, which is also the language of the `style` elements of markup.
-/

namespace SyntaxHue

namespace Language

/-- A rule that starts with an at sign, up to its semicolon or block. -/
def atRuleSource : String :=
  "@[\\w-](?:[^;\x7b\\s\"']|\\s+(?!\\s)|" ++ quotedString ++ ")*?(?:;|(?=\\s*\\\x7b))"

/-- A reference to another document. -/
def urlSource : String :=
  "(?i)\\burl\\((?:" ++ quotedString ++
    "|(?:[^\\\\\\r\\n()\"']|\\\\[\\s\\S])*)\\)"

/-- What stands before a block. -/
def selectorSource : String :=
  "(^|[\x7b\x7d\\s])[^\x7b\x7d\\s](?:[^\x7b\x7d;\"'\\s]|\\s+(?![\\s\x7b])|" ++ quotedString ++
    ")*(?=\\s*\\\x7b)"

/-- The grammar of style sheets. -/
def styleSheet : GrammarDef := .ofRules
  [.mk "comment" [.plain "/\\*[\\s\\S]*?\\*/"],
   .mk "atrule"
    [.mk { source := atRuleSource } (.grammar (.ofRules
      [.mk "rule" [.plain "^@[\\w-]+"],
       .mk "keyword"
        [.mk { source := "(^|[^\\w-])(?:and|not|only|or)(?![\\w-])",
               lookbehind := true } .none]]
      none))],
   .mk "url"
    [.mk { source := urlSource, greedy := true } (.grammar (.ofRules
      [.mk "function" [.plain "(?i)^url"],
       .mk "punctuation" [.plain "^\\(|\\)$"],
       .mk "string"
        [.mk { source := "^(?:" ++ quotedString ++ ")$", aliases := ["url"] } .none]]
      none))],
   .mk "selector" [.mk { source := selectorSource, lookbehind := true } .none],
   .mk "string" [.mk { source := quotedString, greedy := true } .none],
   .mk "property"
    [.mk { source := "(^|[^-\\w])[-_a-zA-Z][-\\w]*(?=\\s*:)", lookbehind := true } .none],
   .mk "important" [.plain "(?i)!important\\b"],
   .mk "function"
    [.mk { source := "(?i)(^|[^-a-z0-9])[-a-z0-9]+(?=\\()", lookbehind := true } .none],
   .mk "punctuation" [.plain "[()\x7b\x7d;:,]"]]
  none

/-- Registers style sheets and their place in markup. -/
def addStyleSheet (s : Store) : Except GrammarError Store := do
  let (_, s) ← s.define "css" styleSheet
  addInlined s "style" "css"

end Language

end SyntaxHue
