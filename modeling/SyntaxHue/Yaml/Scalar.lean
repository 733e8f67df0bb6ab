import SyntaxHue.Text.Digits
import SyntaxHue.Yaml.Source

/-!
# Scalars

The text of scalars in each of their styles. In the plain and quoted styles a line break inside
the scalar is folded to a space, and empty lines stand for line breaks; in the block styles the
indentation is taken off the lines.
-/

namespace SyntaxHue

namespace Yaml

/-- Blanks and line breaks inside a scalar. -/
structure Gap where
  /-- Blanks on the first line, the last one first. -/
  blanks : List Char := []
  /-- Whether a line has ended. -/
  broken : Bool := false
  /-- The first line break, unless it was escaped. -/
  first : Option Char := none
  /-- The line breaks after the first one, the last one first. -/
  more : List Char := []

namespace Gap

/-- Adds a blank. Blanks at the start of a line do not count. -/
def addBlank (g : Gap) (c : Char) : Gap :=
  if g.broken then g else { g with blanks := c :: g.blanks }

/-- Adds a line break. -/
def addBreak (g : Gap) (c : Char) : Gap :=
  if g.broken then { g with more := c :: g.more }
  else { broken := true, first := some c }

/-- Whether there is neither a blank nor a line break. -/
def isEmpty (g : Gap) : Bool :=
  g.blanks.isEmpty && !g.broken

/-- What the gap is folded to, in reverse order. -/
def folded (g : Gap) : List Char :=
  if !g.broken then g.blanks
  else
    match g.first with
    | some '\n' => if g.more.isEmpty then [' '] else g.more
    | some c => g.more ++ [c]
    | none => g.more

end Gap

/-- Whether a colon here would belong to no word inside brackets. -/
def isLooseColon : List Char → Bool
  | ':' :: c :: _ => c = ',' || c = '?' || c = '[' || c = ']' || c = '{' || c = '}'
  | _ => false

/-- Whether a plain scalar ends in front of `cs`. -/
def endsPlain (flow : Bool) (cs : List Char) : Bool :=
  match cs with
  | ':' :: rest => endsWord rest
  | c :: _ => flow && (c = ',' || c = '[' || c = ']' || c = '{' || c = '}')
  | [] => true

/-- Reads a plain scalar. `flow` says whether it stands inside brackets, `indent` is the least
    column of its further lines, and `seen` is what was read, in reverse order. Returns also
    whether the scalar was followed by a line break. -/
def plainFrom (flow : Bool) (indent : Int) :
    Nat → Source → Gap → List Char → Option (String × Bool × Source)
  | 0, _, _, _ => none
  | fuel + 1, s, gap, seen =>
    let done := some (String.ofList seen.reverse, gap.broken, s)
    match s.rest with
    | [] => done
    | c :: _ =>
      if isSpace c then
        if gap.broken && c = '\t' && s.column < indent then none
        else plainFrom flow indent fuel s.advance (gap.addBlank c) seen
      else if isBreak c then
        let (b, s) := s.newLine
        plainFrom flow indent fuel s (gap.addBreak b) seen
      else if !gap.isEmpty && (c = '#' || s.atDocumentMark ||
          (!flow && gap.broken && s.column < indent)) then done
      else if flow && isLooseColon s.rest then none
      else if endsPlain flow s.rest then done
      else plainFrom flow indent fuel s.advance {} (c :: (gap.folded ++ seen))

/-- Reads a plain scalar. -/
def plain? (flow : Bool) (indent : Int) (s : Source) : Option (String × Bool × Source) :=
  plainFrom flow indent (s.rest.length + 1) s {} []

/-- The characters that stand behind a backslash for other ones. -/
def escapes : List (Char × Char) :=
  [('0', '\x00'), ('a', '\x07'), ('b', '\x08'), ('t', '\t'), ('\t', '\t'), ('n', '\n'),
   ('v', '\x0b'), ('f', '\x0c'), ('r', '\r'), ('e', '\x1b'), (' ', ' '), ('"', '"'), ('/', '/'),
   ('\\', '\\'), ('N', '\u0085'), ('_', '\u00a0'), ('L', '\u2028'), ('P', '\u2029')]

/-- The number of digits behind the letter of a numeric escape. -/
def escapeWidth? : Char → Option Nat
  | 'x' => some 2
  | 'u' => some 4
  | 'U' => some 8
  | _ => none

/-- The character with a number, unless it is half of one or too large. -/
def charOf? (n : Nat) : Option Char :=
  if n < 0xD800 || (0xDFFF < n && n ≤ 0x10FFFF) then some (Char.ofNat n) else none

/-- Reads what follows a backslash. Returns also how many characters that was. -/
def escape? : List Char → Option (Char × Nat)
  | [] => none
  | c :: cs =>
    match escapeWidth? c with
    | some width => do
      let digits := cs.take width
      if digits.length < width then none
      let n ← Digits.toNat? 16 digits
      return (← charOf? n, width + 1)
    | none => (escapes.lookup c).map fun c => (c, 1)

/-- Reads the rest of a scalar between the quotes `quote`. -/
def quotedFrom (quote : Char) : Nat → Source → Gap → List Char → Option (String × Source)
  | 0, _, _, _ => none
  | fuel + 1, s, gap, seen =>
    match s.rest with
    | [] => none
    | c :: rest =>
      if isSpace c then quotedFrom quote fuel s.advance (gap.addBlank c) seen
      else if isBreak c then
        let (b, s) := s.newLine
        quotedFrom quote fuel s (gap.addBreak b) seen
      else if s.atDocumentMark then none
      else
        let before := gap.folded ++ seen
        if c = quote then
          if quote = '\'' && rest.head? = some '\'' then
            quotedFrom quote fuel (s.advanceBy 2) {} ('\'' :: before)
          else some (String.ofList before.reverse, s.advance)
        else if c = '\\' && quote = '"' then
          if !rest.isEmpty && endsLine rest then
            quotedFrom quote fuel s.advance.newLine.2 { broken := true } before
          else
            match escape? rest with
            | some (x, count) =>
              quotedFrom quote fuel (s.advanceBy (count + 1)) {} (x :: before)
            | none => none
        else quotedFrom quote fuel s.advance {} (c :: before)

/-- Reads a scalar in quotes; the source begins with the first of them. -/
def quoted? (quote : Char) (s : Source) : Option (String × Source) :=
  quotedFrom quote (s.rest.length + 1) s.advance {} []

/-- Which line breaks at the end of a block scalar belong to it. -/
inductive Chomping where
  | strip
  /-- The first one. -/
  | clip
  | keep
deriving DecidableEq, Repr

/-- What the first line of a block scalar says. -/
structure BlockHeader where
  chomping : Chomping := .clip
  /-- The indentation, from that of the surrounding block on. -/
  increment : Option Nat := none

namespace BlockHeader

/-- Reads the digit of the indentation, if there is one. It is not zero. -/
def increment? (h : BlockHeader) (s : Source) : Option (BlockHeader × Source) :=
  match s.rest with
  | c :: _ =>
    if !c.isDigit then some (h, s)
    else if c = '0' then none
    else some ({ h with increment := some (c.toNat - 48) }, s.advance)
  | [] => some (h, s)

/-- Reads the sign of the chomping, if there is one. -/
def chomping? (h : BlockHeader) (s : Source) : BlockHeader × Source :=
  match s.rest with
  | '-' :: _ => ({ h with chomping := .strip }, s.advance)
  | '+' :: _ => ({ h with chomping := .keep }, s.advance)
  | _ => (h, s)

/-- Reads a sign and a digit, in either order, and the rest of the line. -/
def read? (s : Source) : Option (BlockHeader × Source) := do
  let (h, afterSign) := chomping? {} s
  let (h, s) ← h.increment? afterSign
  let (h, s) := if h.chomping = .clip then h.chomping? s else (h, s)
  return (h, ← s.finishLine?)

end BlockHeader

/-- Skips the indentation and the empty lines in front of a line of a block scalar. An `indent`
    of 0 is not known yet. Returns the line breaks, in reverse order, the greatest indentation
    and the start of the text of the line. -/
def blockBreaks (indent : Nat) :
    Nat → Source → List Char → Nat → Option (List Char × Nat × Source)
  | 0, _, _, _ => none
  | fuel + 1, s, breaks, widest =>
    match s.rest with
    | [] => some (breaks, max widest s.column, s)
    | c :: _ =>
      let inside := indent = 0 || s.column < indent
      if inside && c = ' ' then blockBreaks indent fuel s.advance breaks widest
      else if inside && c = '\t' then none
      else if isBreak c then
        let (b, next) := s.newLine
        blockBreaks indent fuel next (b :: breaks) (max widest s.column)
      else some (breaks, max widest s.column, s)

/-- Reads the lines of a block scalar. `seen` is what was read, `last` the break of the last
    line and `breaks` are those of the empty lines after it, all in reverse order; `wasBlank`
    says whether the last line began with a blank. -/
def blockLines (folded : Bool) (indent : Nat) :
    Nat → Source → List Char → List Char → List Char → Bool →
      Option (List Char × List Char × List Char × Source)
  | 0, _, _, _, _, _ => none
  | fuel + 1, s, seen, last, breaks, wasBlank =>
    if s.column != indent || s.rest.isEmpty then some (seen, last, breaks, s)
    else
      let isBlank := s.rest.head?.any isSpace
      let joint :=
        if folded && last == ['\n'] && !wasBlank && !isBlank then
          if breaks.isEmpty then [' '] else breaks
        else breaks ++ last
      let line := s.rest.takeWhile (!isBreak ·)
      let seen := line.reverse ++ (joint ++ seen)
      let s := s.advanceBy line.length
      let (last, s) :=
        if s.rest.isEmpty then ([], s)
        else
          let (b, s) := s.newLine
          ([b], s)
      match blockBreaks indent (s.rest.length + 1) s [] 0 with
      | none => none
      | some (breaks, _, s) => blockLines folded indent fuel s seen last breaks isBlank

/-- Reads a block scalar inside a block with indentation `parent`; the source begins with its
    indicator. -/
def block? (folded : Bool) (parent : Int) (s : Source) : Option (String × Source) := do
  let (h, s) ← BlockHeader.read? s.advance
  let fuel := s.rest.length + 1
  let stated := (h.increment.map fun n => (max parent 0).toNat + n).getD 0
  let (breaks, widest, s) ← blockBreaks stated fuel s [] 0
  let indent := if stated = 0 then max (max widest (parent + 1).toNat) 1 else stated
  let (seen, last, breaks, s) ← blockLines folded indent fuel s [] [] breaks false
  let all := match h.chomping with
    | .strip => seen
    | .clip => last ++ seen
    | .keep => breaks ++ (last ++ seen)
  return (String.ofList all.reverse, s)

end Yaml

end SyntaxHue
