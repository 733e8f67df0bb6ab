import SyntaxHue.Json.Print
import SyntaxHue.Token.Tree

/-!
# Token trees as data

Raw text is a text. A token is a record of its kind, its content, its aliases if it has any, and
its length.
-/

namespace SyntaxHue

/-- The fields of a token with the given content. -/
def tokenFields (t : Token) (content : Datum) : List Field :=
  [.mk (.text "type") (.text t.kind), .mk (.text "content") content] ++
    (if t.aliases.isEmpty then [] else [.mk (.text "alias") (.list (t.aliases.map .text))]) ++
    [.mk (.text "length") (.natural t.length)]

mutual

/-- A node as data. -/
def Node.toDatum : Node → Datum
  | .text s => .text s
  | .token t => t.toDatum

/-- A token as data. -/
def Token.toDatum : Token → Datum
  | .mk kind content aliases length =>
    .record (tokenFields (.mk kind content aliases length) content.toDatum)

/-- What a token holds as data. -/
def Content.toDatum : Content → Datum
  | .text s => .text s
  | .nested nodes => .list (toDatums nodes)

/-- Nodes as data. -/
def toDatums : List Node → List Datum
  | [] => []
  | node :: nodes => node.toDatum :: toDatums nodes

end

/-- A token tree as JSON text. -/
def dump (nodes : List Node) : String :=
  (Datum.list (toDatums nodes)).toJson

end SyntaxHue
