import SyntaxHue.Language.PlainText

/-!
# Markup

The grammar of HTML, XML, SVG and MathML, and the rules for elements whose text is in another
language.
-/

namespace SyntaxHue

namespace Language

/-- A tag with its attributes. -/
def tagSource : String :=
  "</?(?!\\d)[^\\s>/=$<%]+(?:\\s(?:\\s*[^\\s>/=]+(?:\\s*=\\s*(?:\"[^\"]*\"|'[^']*'|[^\\s'\"" ++
  ">=]+(?=[\\s>]))|(?=[\\s/>])))+)?\\s*/?>"

/-- A document type declaration, with an internal subset if there is one. -/
def doctypeSource : String :=
  "(?i)<!DOCTYPE(?:[^>\"'\\[\\]]|\"[^\"]*\"|'[^']*')+(?:\\[(?:[^<\"'\\]]|\"[^\"]*\"|'[^']*'" ++
  "|<(?!!--)|<!--(?:[^-]|-(?!->))*-->)*\\]\\s*)?>"

/-- References to characters by name or number. -/
def entity : RuleDef := .mk "entity"
  [.mk { source := "(?i)&[\\da-z]\x7b1,8\x7d;", aliases := ["named-entity"] } .none,
   .plain "(?i)&#x?[\\da-f]\x7b1,8\x7d;"]

/-- The part of a name before its colon. -/
def namespaceRule : RuleDef := .mk "namespace" [.plain "^[^\\s>/:]+:"]

/-- The inside of a tag. -/
def tagInside : GrammarDef := .ofRules
  [.mk "tag"
    [.mk { source := "^</?[^\\s>/]+" }
      (.grammar (.ofRules [.mk "punctuation" [.plain "^</?"], namespaceRule] none))],
   .mk "attr-value"
    [.mk { source := "=\\s*(?:\"[^\"]*\"|'[^']*'|[^\\s'\">=]+)" }
      (.grammar (.ofRules
        [.mk "punctuation"
          [.mk { source := "^=", aliases := ["attr-equals"] } .none,
           .mk { source := "^(\\s*)[\"']|[\"']$", lookbehind := true } .none],
         entity]
        none))],
   .mk "punctuation" [.plain "/?>"],
   .mk "attr-name"
    [.mk { source := "[^\\s>/]+" } (.grammar (.ofRules [namespaceRule] none))]]
  none

/-- The inside of a document type declaration. -/
def doctypeInside : GrammarDef := .ofRules
  [.mk "internal-subset"
    [.mk { source := "(^[^\\[]*\\[)[\\s\\S]+(?=\\]>$)", lookbehind := true,
           greedy := true } (.language "markup")],
   .mk "string" [.mk { source := "\"[^\"]*\"|'[^']*'", greedy := true } .none],
   .mk "punctuation" [.plain "^<!|>$|[\\[\\]]"],
   .mk "doctype-tag" [.plain "(?i)^DOCTYPE"],
   .mk "name" [.plain "[^\\s<>'\"]+"]]
  none

/-- The grammar of markup. -/
def markup : GrammarDef := .ofRules
  [.mk "comment"
    [.mk { source := "<!--(?:(?!<!--)[\\s\\S])*?-->", greedy := true } .none],
   .mk "prolog" [.mk { source := "<\\?[\\s\\S]+?\\?>", greedy := true } .none],
   .mk "doctype"
    [.mk { source := doctypeSource, greedy := true } (.grammar doctypeInside)],
   .mk "cdata"
    [.mk { source := "(?i)<!\\[CDATA\\[[\\s\\S]*?\\]\\]>", greedy := true } .none],
   .mk "tag" [.mk { source := tagSource, greedy := true } (.grammar tagInside)],
   entity]
  none

/-- Registers markup and its names. -/
def addMarkup (s : Store) : Except GrammarError Store := do
  let (_, s) ← s.define "markup" markup
  addAliases "markup" ["html", "xml", "svg", "mathml"] s

/-- The text of the elements `tagName`. -/
def inlinedSource (tagName : String) : String :=
  "(?i)(<" ++ tagName ++ "[^>]*>)[\\s\\S]+?(?=</" ++ tagName ++ ">)"

/-- The rule for the text of the elements `tagName`, which is in `language`. -/
def inlined (tagName language : String) : GrammarDef := .ofRules
  [.mk tagName
    [.mk { source := inlinedSource tagName, lookbehind := true, greedy := true,
           aliases := ["language-" ++ language] } (.language language)]]
  none

/-- Highlights the text of the elements `tagName` of markup as `language`. The rule goes before
    the rule for tags, so that the text is taken before the tags in it. -/
def addInlined (s : Store) (tagName language : String) : Except GrammarError Store :=
  Prod.snd <$> s.insertBeforeLanguage "markup" "tag" (inlined tagName language) none

end Language

end SyntaxHue
