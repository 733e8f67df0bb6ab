import SyntaxHue.Hooks
import SyntaxHue.Markup.Escape
import SyntaxHue.Token.Tree

/-!
# Rendering

Raw text is escaped; a token becomes an element whose classes are its kind and aliases. Each
token passes through the callbacks of the stage `wrap`, after all tokens in it.
-/

namespace SyntaxHue

/-- How elements look. -/
structure RenderConfig where
  /-- The name of the elements. -/
  tag : String := "span"
  /-- The first class of each element, unless it is empty. -/
  classPrefix : String := "token"
deriving DecidableEq, Repr

/-- What a callback of the stage `wrap` sees of a token. -/
structure WrapEnv where
  kind : String
  /-- The markup inside the element. -/
  content : String
  tag : String
  classes : List String
  /-- Further attributes, in order. -/
  attributes : Table String
  language : String

namespace Markup

/-- The classes of a token. -/
def classes (config : RenderConfig) (t : Token) : List String :=
  (if config.classPrefix.isEmpty then [] else [config.classPrefix]) ++ t.kind :: t.aliases

/-- The attributes behind the classes. -/
def attributes (t : Table String) : String :=
  t.entries.foldl (fun out entry =>
    out ++ " " ++ entry.1 ++ "=\"" ++ escapeAttribute entry.2 ++ "\"") ""

/-- The element for a token. -/
def element (env : WrapEnv) : String :=
  "<" ++ env.tag ++ " class=\"" ++ String.intercalate " " env.classes ++ "\"" ++
    attributes env.attributes ++ ">" ++ env.content ++ "</" ++ env.tag ++ ">"

/-- What the callbacks see of a token with the given markup inside. -/
def wrapEnv (config : RenderConfig) (language : String) (t : Token) (content : String) :
    WrapEnv where
  kind := t.kind
  content := content
  tag := config.tag
  classes := classes config t
  attributes := .empty
  language := language

variable {σ : Type}

mutual

/-- Renders a node behind `out`. -/
def renderNode (config : RenderConfig) (hooks : HookRegistry WrapEnv σ) (language : String)
    (out : String) (st : σ) : Node → String × σ
  | .text s => (out ++ escape s, st)
  | .token (.mk kind content aliases length) =>
    let (inside, st) := renderContent config hooks language st content
    let env := wrapEnv config language (.mk kind content aliases length) inside
    let (env, st) := hooks.run Stage.wrap.name env st
    (out ++ element env, st)

/-- Renders what a token holds. -/
def renderContent (config : RenderConfig) (hooks : HookRegistry WrapEnv σ) (language : String)
    (st : σ) : Content → String × σ
  | .text s => (escape s, st)
  | .nested nodes => renderNodes config hooks language "" st nodes

/-- Renders nodes behind `out`, from left to right. -/
def renderNodes (config : RenderConfig) (hooks : HookRegistry WrapEnv σ) (language : String)
    (out : String) (st : σ) : List Node → String × σ
  | [] => (out, st)
  | node :: nodes =>
    let (out, st) := renderNode config hooks language out st node
    renderNodes config hooks language out st nodes

end

/-- The markup of a token tree. -/
def render (config : RenderConfig) (hooks : HookRegistry WrapEnv σ) (language : String)
    (nodes : List Node) (st : σ) : String × σ :=
  renderNodes config hooks language "" st nodes

end Markup

end SyntaxHue
