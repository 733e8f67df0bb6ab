/-!
# YAML text

A `Source` is what is left of a text and where that begins. The characters that matter to every
part of the format are blanks, line breaks and the marks around documents.
-/

namespace SyntaxHue

namespace Yaml

/-- What is left of a text. Characters, lines and columns are counted from 0. -/
structure Source where
  index : Nat := 0
  line : Nat := 0
  column : Nat := 0
  rest : List Char

/-- Whether `c` separates words on a line. -/
def isSpace (c : Char) : Bool :=
  c = ' ' || c = '\t'

/-- Whether `c` ends a line. -/
def isBreak (c : Char) : Bool :=
  c = '\n' || c = '\r' || c = '\u0085' || c = '\u2028' || c = '\u2029'

/-- Whether a word ends where `cs` begins. -/
def endsWord : List Char → Bool
  | [] => true
  | c :: _ => isSpace c || isBreak c

/-- Whether a line ends where `cs` begins. -/
def endsLine : List Char → Bool
  | [] => true
  | c :: _ => isBreak c

/-- Whether `c` may stand in the name of an anchor or a directive. -/
def isNameChar (c : Char) : Bool :=
  c.isAlphanum || c = '_' || c = '-'

/-- Whether `c` may stand in a text at all. -/
def isAllowed (c : Char) : Bool :=
  let n := c.toNat
  c = '\t' || c = '\n' || c = '\r' || (0x20 ≤ n && n ≤ 0x7E) || n = 0x85 ||
    (0xA0 ≤ n && n ≤ 0xFFFD) || 0x10000 ≤ n

namespace Source

/-- The source behind a character that ends no line. -/
def advance (s : Source) : Source :=
  { s with index := s.index + 1, column := s.column + 1, rest := s.rest.tail }

/-- The source `count` such characters on. -/
def advanceBy (s : Source) (count : Nat) : Source :=
  { s with index := s.index + count, column := s.column + count, rest := s.rest.drop count }

/-- The source behind the characters that `p` holds of. -/
def skipWhile (s : Source) (p : Char → Bool) : Source :=
  s.advanceBy (s.rest.takeWhile p).length

/-- The start of the next line; `rest` is what stands there. -/
def onNextLine (s : Source) (count : Nat) (rest : List Char) : Source :=
  ⟨s.index + count, s.line + 1, 0, rest⟩

/-- The source behind a line break, and the character that the break stands for. -/
def newLine (s : Source) : Char × Source :=
  match s.rest with
  | '\r' :: '\n' :: rest => ('\n', s.onNextLine 2 rest)
  | '\u2028' :: rest => ('\u2028', s.onNextLine 1 rest)
  | '\u2029' :: rest => ('\u2029', s.onNextLine 1 rest)
  | _ :: rest => ('\n', s.onNextLine 1 rest)
  | [] => ('\n', s)

/-- Whether the source begins with three characters `c` that make up a word. -/
def startsWithThree (s : Source) (c : Char) : Bool :=
  s.rest.take 3 == [c, c, c] && endsWord (s.rest.drop 3)

/-- Whether a line begins here with the mark of the start or end of a document. -/
def atDocumentMark (s : Source) : Bool :=
  s.column = 0 && (s.startsWithThree '-' || s.startsWithThree '.')

/-- Skips the blanks and the comment at the end of a line, and the line break. Nothing else may
    be left of the line. -/
def finishLine? (s : Source) : Option Source :=
  let s := s.skipWhile isSpace
  let s := if s.rest.head? = some '#' then s.skipWhile (!isBreak ·) else s
  if s.rest.isEmpty then some s
  else if endsLine s.rest then some s.newLine.2
  else none

end Source

end Yaml

end SyntaxHue
