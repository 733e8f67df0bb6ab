import SyntaxHue.Element
import SyntaxHue.Settings
import SyntaxHue.Tokenizer

/-!
# The highlighter

A highlighter takes source code to markup: callbacks, tokenizing, callbacks, rendering. Every
decision on the way looks at the environment as the callbacks before it have left it. A text
that cannot be tokenized, because its language is unknown, a callback has taken the grammar away
or the text is too long, is escaped as it stands.

The callbacks read and write a state of type `σ`, which every function takes and returns.
-/

namespace SyntaxHue

/-- What the callbacks of the highlighter see. -/
structure HighlightEnv where
  code : String
  /-- The grammar to tokenize with. There is no tokenizing without one. -/
  grammar : Option GrammarId
  language : String
  /-- The token tree, after tokenizing. -/
  tokens : List Node := []
  /-- The markup, after rendering. -/
  highlighted : String := ""

/-- Grammars, callbacks and settings. -/
structure Highlighter (σ : Type) where
  store : Store
  hooks : HookRegistry HighlightEnv σ := .empty
  wrapHooks : HookRegistry WrapEnv σ := .empty
  settings : Settings := {}

/-- A code element after highlighting. -/
structure HighlightedElement where
  language : String
  /-- The classes that the element gets. -/
  className : String
  /-- The markup that the element gets. -/
  markup : String
deriving DecidableEq, Repr

namespace Highlighter

variable {σ : Type}

/-- Adds a callback under a name. -/
def addHook (h : Highlighter σ) (name : String) (hook : Hook HighlightEnv σ) : Highlighter σ :=
  { h with hooks := h.hooks.add name hook }

/-- Adds a callback for every token that is rendered. -/
def addWrapHook (h : Highlighter σ) (hook : Hook WrapEnv σ) : Highlighter σ :=
  { h with wrapHooks := h.wrapHooks.add Stage.wrap.name hook }

/-- Runs the callbacks of a stage. -/
def runStage (h : Highlighter σ) (stage : Stage) (env : HighlightEnv) (st : σ) :
    HighlightEnv × σ :=
  h.hooks.run stage.name env st

/-- The markup of a token tree. -/
def render (h : Highlighter σ) (nodes : List Node) (language : String) (st : σ) : String × σ :=
  Markup.render h.settings.render h.wrapHooks language nodes st

/-- The environment with its code escaped as the markup. -/
def escaped (env : HighlightEnv) : HighlightEnv :=
  { env with highlighted := Markup.escape env.code }

/-- Tokenizes and renders the code of an environment. -/
def process (h : Highlighter σ) (env : HighlightEnv) (st : σ) :
    Except Fault (HighlightEnv × σ) := do
  let (env, st) := h.runStage .beforeTokenize env st
  match env.grammar with
  | none => return (escaped env, st)
  | some grammar =>
    if h.settings.isTooLong env.code then return (escaped env, st)
    let tokens ← h.store.tokenize env.code grammar
    let (env, st) := h.runStage .afterTokenize { env with tokens } st
    let (markup, st) := h.render env.tokens env.language st
    return ({ env with highlighted := markup }, st)

/-- The markup for a text. `language` is what the callbacks are told. -/
def highlight (h : Highlighter σ) (text : String) (grammar : GrammarId) (language : String)
    (st : σ) : Except Fault (String × σ) := do
  let (env, st) ← h.process { code := text, grammar := some grammar, language } st
  return (env.highlighted, st)

/-- The markup for a text in a language. In an unknown language the text is escaped, and no
    callback is run. -/
def highlightLanguage (h : Highlighter σ) (text language : String) (st : σ) :
    Except Fault (String × σ) :=
  match h.store.get? language with
  | some grammar => h.highlight text grammar language st
  | none => .ok (Markup.escape text, st)

/-- Highlights the code of an environment with the callbacks for elements around it. Empty code
    goes straight to the last of them, and is the markup as it stands then. -/
def processElement (h : Highlighter σ) (env : HighlightEnv) (st : σ) :
    Except Fault (String × σ) := do
  let (env, st) := h.runStage .beforeSanityCheck env st
  if env.code.isEmpty then
    let (env, st) := h.runStage .complete env st
    return (env.code, st)
  let (env, st) := h.runStage .beforeHighlight env st
  let (env, st) ← if env.grammar.isSome then h.process env st else pure (escaped env, st)
  let (env, st) := h.runStage .beforeInsert env st
  let (env, st) := h.runStage .afterHighlight env st
  let (env, st) := h.runStage .complete env st
  return (env.highlighted, st)

/-- Highlights a code element in the language that it declares. -/
def highlightElement (h : Highlighter σ) (e : CodeElement) (st : σ) :
    Except Fault (HighlightedElement × σ) := do
  let language := e.language
  let env : HighlightEnv := { code := e.code, grammar := h.store.get? language, language }
  let (markup, st) ← h.processElement env st
  return (⟨language, e.normalizedClass language, markup⟩, st)

/-- Highlights, in order, the elements that declare a language. -/
def highlightAll (h : Highlighter σ) :
    List CodeElement → σ → Except Fault (List HighlightedElement × σ)
  | [], st => .ok ([], st)
  | e :: es, st =>
    if e.declaredLanguage?.isNone then h.highlightAll es st
    else do
      let (first, st) ← h.highlightElement e st
      let (others, st) ← h.highlightAll es st
      return (first :: others, st)

end Highlighter

end SyntaxHue
