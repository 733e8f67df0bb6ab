import SyntaxHue.Language.CFamily
import SyntaxHue.Language.Markup

/-!
# Scripts

The grammar of JavaScript, which extends the family of C and is also the language of the
`script` elements of markup.
-/

namespace SyntaxHue

namespace Language

def keywordSource : String :=
  "(^|[^.]|\\.\\.\\.\\s*)\\b(?:as|async|await|break|case|catch|class|const|continue|debugge" ++
  "r|default|delete|do|else|enum|export|extends|finally|for|from|function|get|if|implements" ++
  "|import|in|instanceof|interface|let|new|null|of|package|private|protected|public|return|" ++
  "set|static|super|switch|this|throw|try|typeof|undefined|var|void|while|with|yield)\\b"

/-- Numbers in four bases, with separators between digits. -/
def numberSource : String :=
  "\\b(?:NaN|Infinity)\\b|\\b0[xX][\\dA-Fa-f]+(?:_[\\dA-Fa-f]+)*n?\\b|\\b0[bB][01]+(?:_[01]" ++
  "+)*n?\\b|\\b0[oO][0-7]+(?:_[0-7]+)*n?\\b|(?:\\b\\d+(?:_\\d+)*(?:\\.(?:\\d+(?:_\\d+)*)?)?" ++
  "|\\B\\.\\d+(?:_\\d+)*)(?:[Ee][+-]?\\d+(?:_\\d+)*)?n?"

def operatorSource : String :=
  "--|\\+\\+|\\*\\*=?|=>|&&=?|\\|\\|=?|[!=]==|<<=?|>>>?=?|[-+*/%&|^!=<>]=?|\\.\x7b3\x7d|\\?" ++
  "\\?=?|\\?\\.?|[~:]"

/-- A regular expression literal. What stands before it tells it from a division. -/
def regexSource : String :=
  "((?:^|[^$\\w.\"'\\])\\s]|\\b(?:return|yield))\\s*)/(?:\\[(?:[^\\]\\\\\\r\\n]|\\\\.)*\\]|" ++
  "\\\\.|[^/\\\\\\[\\r\\n])+/[dgimsuy]\x7b0,7\x7d(?=\\s*(?:$|[\\r\\n,.;:\x7d)\\]]|//))"

/-- A template string, with braces nested in its interpolations up to three deep. -/
def templateSource : String :=
  "`(?:\\\\[\\s\\S]|\\$\\\x7b(?:[^\x7b\x7d]|\\\x7b(?:[^\x7b\x7d]|\\\x7b[^\x7d]*\\\x7d)*\\" ++
  "\x7d)+\\\x7d|(?!\\$\\\x7b)[^\\\\`])*`"

/-- An interpolation that no backslash takes the meaning from. -/
def interpolationSource : String :=
  "((?:^|[^\\\\])(?:\\\\\x7b2\x7d)*)\\$\\\x7b(?:[^\x7b\x7d]|\\\x7b(?:[^\x7b\x7d]|\\\x7b[^" ++
  "\x7d]*\\\x7d)*\\\x7d)+\\\x7d"

/-- The rules that replace or follow those of the family of C. -/
def scriptOverrides : GrammarDef := .ofRules
  [.mk "keyword" [.mk { source := keywordSource, lookbehind := true } .none],
   .mk "function"
    [.plain "#?[_$a-zA-Z][$\\w]*(?=\\s*(?:\\.\\s*(?:apply|bind|call)\\s*)?\\()"],
   .mk "number" [.plain numberSource],
   .mk "operator" [.plain operatorSource]]
  none

/-- The rules that go before keywords. -/
def scriptLiterals : GrammarDef := .ofRules
  [.mk "regex"
    [.mk { source := regexSource, lookbehind := true, greedy := true } (.grammar (.ofRules
      [.mk "regex-source"
        [.mk { source := "^(/)[\\s\\S]+(?=/[a-z]*$)", lookbehind := true,
               aliases := ["language-regex"] } .none],
       .mk "regex-delimiter" [.plain "^/|/$"],
       .mk "regex-flags" [.plain "^[a-z]+$"]]
      none))],
   .mk "constant" [.plain "\\b[A-Z](?:[A-Z_]|\\dx?)*\\b"]]
  none

/-- The inside of an interpolation. -/
def interpolation : GrammarDef := .ofRules
  [.mk "interpolation-punctuation"
    [.mk { source := "^\\$\\\x7b|\\\x7d$", aliases := ["punctuation"] } .none]]
  (some "javascript")

/-- The rules that go before strings. -/
def scriptTemplates : GrammarDef := .ofRules
  [.mk "hashbang" [.mk { source := "^#!.*", greedy := true, aliases := ["comment"] } .none],
   .mk "template-string"
    [.mk { source := templateSource, greedy := true } (.grammar (.ofRules
      [.mk "template-punctuation"
        [.mk { source := "^`|`$", aliases := ["string"] } .none],
       .mk "interpolation"
        [.mk { source := interpolationSource, lookbehind := true } (.grammar interpolation)],
       .mk "string" [.plain "[\\s\\S]+"]]
      none))]]
  none

/-- Registers scripts, their other name and their place in markup. -/
def addScript (s : Store) : Except GrammarError Store := do
  let (id, s) ← s.extend "javascript" "clike" scriptOverrides
  let s ← s.insertBefore id "keyword" scriptLiterals
  let s ← s.insertBefore id "string" scriptTemplates
  let (_, s) ← s.addAlias "js" "javascript"
  addInlined s "script" "javascript"

end Language

end SyntaxHue
