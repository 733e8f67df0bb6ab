import SyntaxHue.Datum

/-!
# Printing JSON

Values are laid out for a reader: each item and field on a line of its own, two columns further
in than what it belongs to.
-/

namespace SyntaxHue

namespace Json

/-- A character inside quotes. Quotes, backslashes and control characters are escaped. -/
def escape (c : Char) : List Char :=
  match c with
  | '"' => ['\\', '"']
  | '\\' => ['\\', '\\']
  | '\x08' => ['\\', 'b']
  | '\x0c' => ['\\', 'f']
  | '\n' => ['\\', 'n']
  | '\r' => ['\\', 'r']
  | '\t' => ['\\', 't']
  | c =>
    if c.toNat < 0x20 then
      ['\\', 'u', '0', '0', Nat.digitChar (c.toNat / 16), Nat.digitChar (c.toNat % 16)]
    else [c]

/-- A text in quotes. -/
def quote (s : String) : List Char :=
  '"' :: s.toList.flatMap escape ++ ['"']

/-- The start of a line at a level. -/
def newLine (level : Nat) : List Char :=
  '\n' :: List.replicate (2 * level) ' '

mutual

/-- A value at a level. -/
def print (level : Nat) : Datum → List Char
  | .null => ['n', 'u', 'l', 'l']
  | .bool true => ['t', 'r', 'u', 'e']
  | .bool false => ['f', 'a', 'l', 's', 'e']
  | .natural n => Nat.toDigits 10 n
  | .number written => written.toList
  | .text s => quote s
  | .list [] => ['[', ']']
  | .list (item :: items) =>
    '[' :: newLine (level + 1) ++ print (level + 1) item ++ printItems (level + 1) items ++
      newLine level ++ [']']
  | .record [] => ['{', '}']
  | .record (field :: fields) =>
    '{' :: newLine (level + 1) ++ printField (level + 1) field ++
      printFields (level + 1) fields ++ newLine level ++ ['}']

/-- Items behind the first one. -/
def printItems (level : Nat) : List Datum → List Char
  | [] => []
  | item :: items => ',' :: newLine level ++ print level item ++ printItems level items

/-- A field. A key that is no text is printed as it is. -/
def printField (level : Nat) : Field → List Char
  | .mk key value => print level key ++ ':' :: ' ' :: print level value

/-- Fields behind the first one. -/
def printFields (level : Nat) : List Field → List Char
  | [] => []
  | field :: fields => ',' :: newLine level ++ printField level field ++ printFields level fields

end

end Json

namespace Datum

/-- The value as JSON text. -/
def toJson (d : Datum) : String :=
  String.ofList (Json.print 0 d)

end Datum

end SyntaxHue
