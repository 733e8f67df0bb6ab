import SyntaxHue.Text.Category
import SyntaxHue.Text.Property

/-!
# Quoted text

A text in double quotes, for a reader who wants to see what is in it: quotes and backslashes are
escaped, and what cannot be seen by itself is written by its number.
-/

namespace SyntaxHue

namespace Quoted

/-- Whether `c` shows by itself. -/
def isVisible (c : Char) : Bool :=
  if c.toNat < 128 then 32 ≤ c.toNat && c.toNat < 127
  else
    match Category.of c with
    | .control | .format | .unassigned | .privateUse | .surrogate => false
    | .lineSeparator | .paragraphSeparator | .spaceSeparator => false
    | .nonspacingMark | .enclosingMark => false
    | _ => !inRanges extenderRanges c

/-- A character inside quotes. -/
def char (c : Char) : List Char :=
  match c with
  | '"' => ['\\', '"']
  | '\\' => ['\\', '\\']
  | '\n' => ['\\', 'n']
  | '\r' => ['\\', 'r']
  | '\t' => ['\\', 't']
  | '\x00' => ['\\', '0']
  | c => if isVisible c then [c] else ['\\', 'u', '{'] ++ Nat.toDigits 16 c.toNat ++ ['}']

/-- A text in quotes. -/
def text (s : String) : String :=
  String.ofList ('"' :: s.toList.flatMap char ++ ['"'])

end Quoted

end SyntaxHue
