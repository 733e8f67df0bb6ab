import SyntaxHue.Datum
import SyntaxHue.Text.Decimal

/-!
# The lexemes of JSON

JSON text is a sequence of punctuation, names of constants, numbers and strings, with white
space between them. `Lexeme.scan` reads it; there is no result if some part of the text is none
of these.
-/

namespace SyntaxHue

namespace Json

/-- A unit of JSON text. -/
inductive Lexeme where
  | openList
  | closeList
  | openRecord
  | closeRecord
  | comma
  | colon
  | text (s : String)
  /-- A constant or a number. -/
  | scalar (value : Datum)

/-- Whether `c` may stand between lexemes. -/
def isSpace (c : Char) : Bool :=
  c = ' ' || c = '\n' || c = '\r' || c = '\t'

/-- The character that stands behind a backslash for another one. -/
def unescape? : Char → Option Char
  | '"' => some '"'
  | '\\' => some '\\'
  | '/' => some '/'
  | 'b' => some '\x08'
  | 'f' => some '\x0c'
  | 'n' => some '\n'
  | 'r' => some '\r'
  | 't' => some '\t'
  | _ => none

/-- The number that four digits of base 16 make. -/
def unit? (a b c d : Char) : Option Nat :=
  Digits.toNat? 16 [a, b, c, d]

/-- Whether a number stands for the first half of a character that is written in two. -/
def isHigh (n : Nat) : Bool :=
  0xD800 ≤ n && n < 0xDC00

/-- Whether a number stands for the second half of a character that is written in two. -/
def isLow (n : Nat) : Bool :=
  0xDC00 ≤ n && n < 0xE000

/-- The character with two halves. -/
def joined (high low : Nat) : Char :=
  Char.ofNat (0x10000 + (high - 0xD800) * 0x400 + (low - 0xDC00))

/-- Reads a string up to its closing quote. Control characters and halves of characters that
    stand alone are not allowed in it. -/
def string? : List Char → Option (List Char × List Char)
  | [] => none
  | '"' :: rest => some ([], rest)
  | '\\' :: 'u' :: a :: b :: c :: d :: rest =>
    match unit? a b c d with
    | none => none
    | some n =>
      if isHigh n then
        match rest with
        | '\\' :: 'u' :: a :: b :: c :: d :: rest =>
          match unit? a b c d with
          | none => none
          | some m =>
            if isLow m then (string? rest).map fun (cs, rest) => (joined n m :: cs, rest)
            else none
        | _ => none
      else if isLow n then none
      else (string? rest).map fun (cs, rest) => (Char.ofNat n :: cs, rest)
  | '\\' :: e :: rest =>
    match unescape? e with
    | none => none
    | some c => (string? rest).map fun (cs, rest) => (c :: cs, rest)
  | c :: rest =>
    if c = '\\' || c.toNat < 0x20 then none
    else (string? rest).map fun (cs, rest) => (c :: cs, rest)

/-- Reads one or more digits. -/
def digits? (cs : List Char) : Option (List Char × List Char) :=
  match Digits.span 10 cs with
  | ([], _) => none
  | (ds, rest) => some (ds, rest)

/-- Reads the digits before the point: a zero stands alone. -/
def whole? : List Char → Option (List Char × List Char)
  | '0' :: rest => some (['0'], rest)
  | cs => digits? cs

/-- Reads the point and the digits behind it, if there is a point. -/
def fraction? : List Char → Option (List Char × List Char)
  | '.' :: rest => digits? rest
  | cs => some ([], cs)

/-- Reads the exponent behind its letter. -/
def signedDigits? : List Char → Option (Int × List Char)
  | '+' :: rest => (digits? rest).map fun (ds, rest) => ((Digits.toNat 10 ds : Int), rest)
  | '-' :: rest => (digits? rest).map fun (ds, rest) => (-(Digits.toNat 10 ds : Int), rest)
  | cs => (digits? cs).map fun (ds, rest) => ((Digits.toNat 10 ds : Int), rest)

/-- Reads the exponent, if there is one. -/
def exponent? : List Char → Option (Option Int × List Char)
  | 'e' :: rest | 'E' :: rest => (signedDigits? rest).map fun (n, rest) => (some n, rest)
  | cs => some (none, cs)

/-- Reads a number without its sign. `sign` is what stood before it. -/
def number? (sign : List Char) (cs : List Char) : Option (Datum × List Char) := do
  let (whole, afterWhole) ← whole? cs
  let (fraction, afterFraction) ← fraction? afterWhole
  let (exponent, rest) ← exponent? afterFraction
  if (Decimal.ofDigits whole fraction (exponent.getD 0)).overflows then none
  else if sign.isEmpty && fraction.isEmpty && exponent.isNone then
    some (.natural (Digits.toNat 10 whole), rest)
  else some (.number (String.ofList (sign ++ cs.take (cs.length - rest.length))), rest)

namespace Lexeme

/-- Reads the lexeme at the start of a text. -/
def first? : List Char → Option (Lexeme × List Char)
  | '[' :: rest => some (openList, rest)
  | ']' :: rest => some (closeList, rest)
  | '{' :: rest => some (openRecord, rest)
  | '}' :: rest => some (closeRecord, rest)
  | ',' :: rest => some (comma, rest)
  | ':' :: rest => some (colon, rest)
  | 'n' :: 'u' :: 'l' :: 'l' :: rest => some (scalar .null, rest)
  | 't' :: 'r' :: 'u' :: 'e' :: rest => some (scalar (.bool true), rest)
  | 'f' :: 'a' :: 'l' :: 's' :: 'e' :: rest => some (scalar (.bool false), rest)
  | '"' :: rest => (string? rest).map fun (cs, rest) => (text (String.ofList cs), rest)
  | '-' :: rest => (number? ['-'] rest).map fun (value, rest) => (scalar value, rest)
  | cs => (number? [] cs).map fun (value, rest) => (scalar value, rest)

/-- Reads lexemes, at most one for each of the first `fuel` characters. -/
def scanWithin : Nat → List Char → Option (List Lexeme)
  | 0, cs => if cs.isEmpty then some [] else none
  | fuel + 1, cs =>
    match cs.dropWhile isSpace with
    | [] => some []
    | cs => do
      let (lexeme, rest) ← first? cs
      let lexemes ← scanWithin fuel rest
      return lexeme :: lexemes

/-- The lexemes of a text. -/
def scan (cs : List Char) : Option (List Lexeme) :=
  scanWithin cs.length cs

end Lexeme

end Json

end SyntaxHue
