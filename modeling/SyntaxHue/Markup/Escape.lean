/-!
# Escaping

Text and attribute values as they stand in markup.
-/

namespace SyntaxHue

namespace Markup

/-- A character of text. A no-break space becomes a plain one. -/
def escapeChar (c : Char) : List Char :=
  match c with
  | '&' => ['&', 'a', 'm', 'p', ';']
  | '<' => ['&', 'l', 't', ';']
  | '\u00A0' => [' ']
  | c => [c]

/-- Text between tags. -/
def escape (s : String) : String :=
  String.ofList (s.toList.flatMap escapeChar)

/-- A character of an attribute value. -/
def escapeAttributeChar (c : Char) : List Char :=
  match c with
  | '"' => ['&', 'q', 'u', 'o', 't', ';']
  | c => [c]

/-- An attribute value between double quotes. -/
def escapeAttribute (s : String) : String :=
  String.ofList (s.toList.flatMap escapeAttributeChar)

end Markup

end SyntaxHue
