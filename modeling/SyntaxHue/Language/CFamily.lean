import SyntaxHue.Grammar.Store
import SyntaxHue.Language.Quoted

/-!
# The family of C

What languages with the notation of C have in common.
-/

namespace SyntaxHue

namespace Language

/-- The grammar of the family of C. -/
def cFamily : GrammarDef := .ofRules
  [.mk "comment"
    [.mk { source := "(^|[^\\\\])/\\*[\\s\\S]*?(?:\\*/|$)", lookbehind := true,
           greedy := true } .none,
     .mk { source := "(^|[^\\\\:])//.*", lookbehind := true, greedy := true } .none],
   .mk "string" [.mk { source := quotedString, greedy := true } .none],
   .mk "class-name"
    [.mk
      { source :=
          "(?i)(\\b(?:class|extends|implements|instanceof|interface|new|trait)\\s+|\\bcatch" ++
          "\\s+\\()[\\w.\\\\]+",
        lookbehind := true }
      (.grammar (.ofRules [.mk "punctuation" [.plain "[.\\\\]"]] none))],
   .mk "keyword"
    [.plain (
      "\\b(?:break|catch|continue|do|else|finally|for|function|if|in|instanceof|new|null|re" ++
      "turn|throw|try|while)\\b")],
   .mk "boolean" [.plain "\\b(?:false|true)\\b"],
   .mk "function" [.plain "\\b\\w+(?=\\()"],
   .mk "number"
    [.plain "(?i)\\b0x[\\da-f]+\\b|(?:\\b\\d+(?:\\.\\d*)?|\\B\\.\\d+)(?:e[+-]?\\d+)?"],
   .mk "operator" [.plain "[<>]=?|[!=]=?=?|--?|\\+\\+?|&&?|\\|\\|?|[?*/~^%]"],
   .mk "punctuation" [.plain "[\x7b\x7d\\[\\];(),.:]"]]
  none

/-- Registers the family of C. -/
def addCFamily (s : Store) : Except GrammarError Store :=
  Prod.snd <$> s.define "clike" cFamily

end Language

end SyntaxHue
