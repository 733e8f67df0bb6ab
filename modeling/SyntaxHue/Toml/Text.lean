import SyntaxHue.Text.Digits

/-!
# The text of TOML files

Blanks, comments, line breaks and the four kinds of strings.
-/

namespace SyntaxHue

namespace Toml

/-- Whether `c` is a blank. -/
def isSpace (c : Char) : Bool :=
  c = ' ' || c = '\t'

/-- Skips blanks. -/
def skipSpace (cs : List Char) : List Char :=
  cs.dropWhile isSpace

/-- Whether `c` may stand in a comment or in a string between apostrophes. -/
def isPrintable (c : Char) : Bool :=
  c = '\t' || (0x20 ≤ c.toNat && c.toNat != 0x7F)

/-- What follows a line break. -/
def afterBreak? : List Char → Option (List Char)
  | '\n' :: cs => some cs
  | '\r' :: '\n' :: cs => some cs
  | _ => none

/-- Skips a comment, if there is one, up to the end of the line. -/
def skipComment (cs : List Char) : List Char :=
  match cs with
  | '#' :: cs => cs.dropWhile isPrintable
  | cs => cs

/-- Skips blanks and a comment. There has to be the end of the line behind them. -/
def finishLine? (cs : List Char) : Option (List Char) :=
  match skipComment (skipSpace cs) with
  | [] => some []
  | cs => afterBreak? cs

/-- Skips blanks, comments and line breaks. -/
def skipLines : Nat → List Char → Option (List Char)
  | 0, cs => some cs
  | fuel + 1, cs =>
    match skipSpace cs with
    | '#' :: cs =>
      match skipComment ('#' :: cs) with
      | [] => none
      | cs => (afterBreak? cs).bind (skipLines fuel)
    | cs =>
      match afterBreak? cs with
      | some cs => skipLines fuel cs
      | none => some cs

/-- The characters that stand behind a backslash for other ones. -/
def escapes : List (Char × Char) :=
  [('b', '\x08'), ('t', '\t'), ('n', '\n'), ('f', '\x0c'), ('r', '\r'), ('"', '"'), ('\\', '\\')]

/-- Reads the number of a character in `width` digits. -/
def scalar? (width : Nat) (cs : List Char) : Option (Char × List Char) := do
  let digits := cs.take width
  if digits.length < width then none
  let n ← Digits.toNat? 16 digits
  if n < 0xD800 || (0xDFFF < n && n ≤ 0x10FFFF) then
    return (Char.ofNat n, cs.drop width)
  else none

/-- Reads what follows a backslash. -/
def escape? : List Char → Option (Char × List Char)
  | 'u' :: cs => scalar? 4 cs
  | 'U' :: cs => scalar? 8 cs
  | c :: cs => (escapes.lookup c).map fun c => (c, cs)
  | [] => none

/-- Reads the rest of a string between quotes, on one line. -/
def basicFrom : Nat → List Char → Option (List Char × List Char)
  | 0, _ => none
  | _ + 1, [] => none
  | fuel + 1, c :: cs =>
    if c = '"' then some ([], cs)
    else if c = '\\' then do
      let (x, cs) ← escape? cs
      let (more, cs) ← basicFrom fuel cs
      return (x :: more, cs)
    else if isPrintable c then (basicFrom fuel cs).map fun (more, cs) => (c :: more, cs)
    else none

/-- Reads the rest of a string between apostrophes, on one line. -/
def literalFrom : List Char → Option (List Char × List Char)
  | [] => none
  | c :: cs =>
    if c = '\'' then some ([], cs)
    else if isPrintable c then (literalFrom cs).map fun (more, cs) => (c :: more, cs)
    else none

/-- Reads the end of a string over several lines: three marks, before which up to two more
    belong to the string. -/
def closing? (quote : Char) (cs : List Char) : Option (List Char × List Char) :=
  let marks := (cs.takeWhile (· = quote)).length
  if marks < 3 then none
  else
    let count := min marks 5
    some (List.replicate (count - 3) quote, cs.drop count)

/-- What follows a backslash at the end of a line: the next character that is no blank. -/
def afterLineEnd? (cs : List Char) : Option (List Char) :=
  (afterBreak? (skipSpace cs)).map skip
where
  /-- Skips blanks and line breaks. -/
  skip : List Char → List Char
    | '\r' :: '\n' :: cs => skip cs
    | c :: cs => if isSpace c || c = '\n' then skip cs else c :: cs
    | [] => []

/-- Reads the rest of a string over several lines. Only between quotes there are escapes. -/
def linesFrom (quote : Char) : Nat → List Char → Option (List Char × List Char)
  | 0, _ => none
  | _ + 1, [] => none
  | fuel + 1, c :: cs =>
    match closing? quote (c :: cs) with
    | some done => some done
    | none =>
      if c = '\\' && quote = '"' then
        match afterLineEnd? cs with
        | some cs => linesFrom quote fuel cs
        | none => do
          let (x, cs) ← escape? cs
          let (more, cs) ← linesFrom quote fuel cs
          return (x :: more, cs)
      else
        match afterBreak? (c :: cs) with
        | some cs => (linesFrom quote fuel cs).map fun (more, cs) => ('\n' :: more, cs)
        | none =>
          if isPrintable c then (linesFrom quote fuel cs).map fun (more, cs) => (c :: more, cs)
          else none

/-- Reads a string over several lines behind its first three marks. A line break right behind
    them does not count. -/
def lines? (quote : Char) (cs : List Char) : Option (List Char × List Char) :=
  let cs := (afterBreak? cs).getD cs
  linesFrom quote (cs.length + 1) cs

/-- Reads a string on one line, or `none` if there is none. -/
def line? : List Char → Option (List Char × List Char)
  | '"' :: cs => basicFrom (cs.length + 1) cs
  | '\'' :: cs => literalFrom cs
  | _ => none

/-- Reads a string. -/
def string? : List Char → Option (List Char × List Char)
  | '"' :: '"' :: '"' :: cs => lines? '"' cs
  | '\'' :: '\'' :: '\'' :: cs => lines? '\'' cs
  | cs => line? cs

/-- Whether `c` may stand in a key without quotes. -/
def isKeyChar (c : Char) : Bool :=
  c.isAlphanum || c = '_' || c = '-'

/-- Reads a part of a key. -/
def keyPart? (cs : List Char) : Option (List Char × List Char) :=
  match cs.takeWhile isKeyChar with
  | [] => line? cs
  | part => some (part, cs.dropWhile isKeyChar)

/-- Reads the parts of a key, with dots between them and blanks around each. -/
def keyFrom : Nat → List Char → Option (List String × List Char)
  | 0, _ => none
  | fuel + 1, cs => do
    let (part, cs) ← keyPart? (skipSpace cs)
    match skipSpace cs with
    | '.' :: cs =>
      let (parts, cs) ← keyFrom fuel cs
      return (String.ofList part :: parts, cs)
    | cs => return ([String.ofList part], cs)

/-- Reads a key. -/
def key? (cs : List Char) : Option (List String × List Char) :=
  keyFrom (cs.length + 1) cs

end Toml

end SyntaxHue
