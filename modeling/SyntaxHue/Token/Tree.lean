/-!
# Token trees

A token tree is a list of nodes. A node is raw text or a token; a token holds its text, or the
nodes that an inner grammar made of it. Reading the texts of all leaves from left to right gives
back what was tokenized.
-/

namespace SyntaxHue

mutual

/-- An element of a token tree. -/
inductive Node where
  | text (s : String)
  | token (t : Token)

/-- A classified stretch of text. -/
inductive Token where
  /-- `kind` is the rule that made the token, `aliases` holds further classes, and `length` is
      the length of the matched text in bytes. -/
  | mk (kind : String) (content : Content) (aliases : List String) (length : Nat)

/-- What a token holds. -/
inductive Content where
  | text (s : String)
  | nested (nodes : List Node)

end

instance : Inhabited Node := ⟨.text ""⟩

namespace Token

/-- The rule that made the token. -/
def kind : Token → String
  | mk kind _ _ _ => kind

def content : Token → Content
  | mk _ content _ _ => content

/-- Further classes of the token. -/
def aliases : Token → List String
  | mk _ _ aliases _ => aliases

/-- The length of the matched text in bytes. -/
def length : Token → Nat
  | mk _ _ _ length => length

/-- The nodes of an inner grammar, if there was one. -/
def children? (t : Token) : Option (List Node) :=
  match t.content with
  | .text _ => none
  | .nested nodes => some nodes

end Token

mutual

/-- The text of a node. -/
def Node.flatten : Node → String
  | .text s => s
  | .token t => t.flatten

/-- The text of a token. -/
def Token.flatten : Token → String
  | .mk _ content _ _ => content.flatten

/-- The text of what a token holds. -/
def Content.flatten : Content → String
  | .text s => s
  | .nested nodes => flattenAll nodes

/-- The text of a token tree. -/
def flattenAll : List Node → String
  | [] => ""
  | node :: nodes => node.flatten ++ flattenAll nodes

end

namespace Node

/-- The length of the text that the node stands for, in bytes. -/
def length : Node → Nat
  | text s => s.utf8ByteSize
  | token t => t.length

/-- Whether the node stands for no text. -/
def isEmpty (n : Node) : Bool :=
  n.length == 0

def isToken : Node → Bool
  | text _ => false
  | token _ => true

def token? : Node → Option Token
  | text _ => none
  | token t => some t

def text? : Node → Option String
  | text s => some s
  | token _ => none

end Node

end SyntaxHue
