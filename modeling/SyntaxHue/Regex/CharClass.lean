import SyntaxHue.Text.CaseFold
import SyntaxHue.Text.Property

/-!
# Character classes

A class is a set of characters, kept as the expression it was written as. Ignoring case
enlarges a set by the case variants of its members, and is therefore applied before a
complement is taken.
-/

namespace SyntaxHue

/-- A set of characters. -/
inductive CharClass where
  | none
  | range (lo hi : Char)
  | word
  | digit
  | blank
  | property (p : CharProperty)
  | union (a b : CharClass)
  | inter (a b : CharClass)
  | compl (a : CharClass)
  | anyCase (a : CharClass)

namespace CharClass

/-- Whether the class has `c`. -/
def mem : CharClass → Char → Bool
  | none, _ => false
  | range lo hi, c => lo ≤ c && c ≤ hi
  | word, c => isWord c
  | digit, c => isDecimal c
  | blank, c => isBlank c
  | property p, c => p.holds c
  | union a b, c => a.mem c || b.mem c
  | inter a b, c => a.mem c && b.mem c
  | compl a, c => !a.mem c
  | anyCase a, c => (caseVariants c).any a.mem

/-- The class of one character. -/
def single (c : Char) : CharClass :=
  range c c

/-- The class of the characters in some ranges. -/
def ranges (rs : List (Char × Char)) : CharClass :=
  rs.foldr (fun r rest => union (range r.1 r.2) rest) none

/-- The characters of `a` that are not in `b`. -/
def diff (a b : CharClass) : CharClass :=
  inter a (compl b)

/-- The characters in one of `a` and `b` but not in both. -/
def symmDiff (a b : CharClass) : CharClass :=
  union (diff a b) (diff b a)

/-- The class `a` if `yes` is false, else `a` with all case variants. -/
def foldIf (yes : Bool) (a : CharClass) : CharClass :=
  if yes then anyCase a else a

/-- The class `a` if `yes` is false, else all other characters. -/
def complIf (yes : Bool) (a : CharClass) : CharClass :=
  if yes then compl a else a

/-- Every character. -/
def all : CharClass :=
  compl none

/-- Every character but the line feed. -/
def notLineFeed : CharClass :=
  compl (single '\n')

/-- The digits of base 16. -/
def hexDigit : CharClass :=
  ranges [('0', '9'), ('a', 'f'), ('A', 'F')]

/-- The classes that are written `[:name:]`. They hold ASCII characters only. -/
def ascii? : String → Option CharClass
  | "alnum" => some (ranges [('0', '9'), ('A', 'Z'), ('a', 'z')])
  | "alpha" => some (ranges [('A', 'Z'), ('a', 'z')])
  | "ascii" => some (range '\x00' '\x7f')
  | "blank" => some (ranges [('\t', '\t'), (' ', ' ')])
  | "cntrl" => some (ranges [('\x00', '\x1f'), ('\x7f', '\x7f')])
  | "digit" => some (range '0' '9')
  | "graph" => some (range '!' '~')
  | "lower" => some (range 'a' 'z')
  | "print" => some (range ' ' '~')
  | "punct" => some (ranges [('!', '/'), (':', '@'), ('[', '\x60'), ('{', '~')])
  | "space" => some (ranges [('\t', '\r'), (' ', ' ')])
  | "upper" => some (range 'A' 'Z')
  | "word" => some (ranges [('0', '9'), ('A', 'Z'), ('_', '_'), ('a', 'z')])
  | "xdigit" => some hexDigit
  | _ => Option.none

end CharClass

end SyntaxHue
