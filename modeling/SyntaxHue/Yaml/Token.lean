import SyntaxHue.Yaml.Scalar

/-!
# Tokens

The tokens of YAML text. Besides what is written there are tokens for the starts and ends of
blocks, which follow from the indentation.
-/

namespace SyntaxHue

namespace Yaml

/-- A unit of YAML text. -/
inductive Token where
  | version (major minor : Nat)
  /-- States what tags with a handle begin with. -/
  | tagHandle (name meaning : String)
  | documentStart
  | documentEnd
  | blockSequence
  | blockMapping
  | blockEnd
  | flowSequence
  | flowSequenceEnd
  | flowMapping
  | flowMappingEnd
  | blockEntry
  | flowEntry
  | key
  | value
  | reference (name : String)
  | anchor (name : String)
  | tag (handle suffix : String)
  /-- `plain` says whether the scalar stands without quotes and is no block. -/
  | scalar (plain : Bool) (text : String)
deriving DecidableEq, Repr

namespace Token

/-- Reads an anchor or alias behind its indicator. -/
def anchorName? (s : Source) : Option (String × Source) :=
  let name := s.rest.takeWhile isNameChar
  let s := s.advanceBy name.length
  let ends := endsWord s.rest ||
    s.rest.head?.any fun c => ['?', ':', ',', ']', '}', '%', '@', '\x60'].contains c
  if name.isEmpty || !ends then none else some (String.ofList name, s)

/-- Whether `c` may stand in a tag. In brackets and directives there is more choice. -/
def isTagChar (more : Bool) (c : Char) : Bool :=
  isNameChar c || [';', '/', '?', ':', '@', '&', '=', '+', '$', '.', '%', '!', '~', '*', '\'',
    '(', ')'].contains c || (more && [',', '[', ']'].contains c)

/-- The byte that two digits of base 16 behind a percent sign stand for. -/
def percentByte? : List Char → Option (Nat × List Char)
  | '%' :: a :: b :: rest => (Digits.toNat? 16 [a, b]).map fun n => (n, rest)
  | _ => none

/-- Reads the further bytes of a character: `count` bytes with six bits each. -/
def percentTail? : Nat → Nat → List Char → Option (Nat × List Char)
  | 0, n, cs => some (n, cs)
  | count + 1, n, cs =>
    match percentByte? cs with
    | some (b, rest) =>
      if b / 64 = 2 then percentTail? count (n * 64 + b % 64) rest else none
    | none => none

/-- Reads a character that is written as percent signs with its bytes. -/
def percentChar? (cs : List Char) : Option (Char × List Char) := do
  let (b, rest) ← percentByte? cs
  let (n, rest) ←
    if b < 0x80 then some (b, rest)
    else if b / 32 = 6 then percentTail? 1 (b % 32) rest
    else if b / 16 = 14 then percentTail? 2 (b % 16) rest
    else if b / 8 = 30 then percentTail? 3 (b % 8) rest
    else none
  return (Char.ofNat n, rest)

/-- Replaces percent signs by the characters that they stand for. -/
def unpercent? : Nat → List Char → Option (List Char)
  | _, [] => some []
  | 0, _ => none
  | fuel + 1, c :: cs =>
    if c = '%' then do
      let (x, rest) ← percentChar? (c :: cs)
      return x :: (← unpercent? fuel rest)
    else (unpercent? fuel cs).map fun cs => c :: cs

/-- Reads the part of a tag behind its handle. -/
def tagSuffix? (more : Bool) (s : Source) : Option (List Char × Source) := do
  let cs := s.rest.takeWhile (isTagChar more)
  let suffix ← unpercent? cs.length cs
  return (suffix, s.advanceBy cs.length)

/-- Reads a handle: an exclamation mark, perhaps a name, and perhaps a second mark. -/
def tagHandle? (s : Source) : Option (List Char × Source) :=
  match s.rest with
  | '!' :: rest =>
    let name := rest.takeWhile isNameChar
    let s := s.advanceBy (name.length + 1)
    if s.rest.head? = some '!' then some ('!' :: name ++ ['!'], s.advance)
    else some ('!' :: name, s)
  | _ => none

/-- Reads a tag without brackets. A name that no second mark follows belongs to the suffix. -/
def shortTag? (s : Source) : Option (Token × Source) := do
  let (handle, afterHandle) ← tagHandle? s
  if handle.length ≥ 2 && handle.getLast? = some '!' then
    let (suffix, s) ← tagSuffix? false afterHandle
    if suffix.isEmpty then none
    else return (.tag (String.ofList handle) (String.ofList suffix), s)
  else
    let (more, s) ← tagSuffix? false afterHandle
    let suffix := handle.tail ++ more
    if suffix.isEmpty then return (.tag "" "!", s)
    else return (.tag "!" (String.ofList suffix), s)

/-- Reads a tag in brackets. -/
def verbatimTag? (s : Source) : Option (Token × Source) := do
  let (suffix, s) ← tagSuffix? true (s.advanceBy 2)
  if suffix.isEmpty || s.rest.head? != some '>' then none
  else return (.tag "" (String.ofList suffix), s.advance)

/-- Reads a tag. A blank has to follow it, or inside brackets a comma. -/
def tag? (flow : Bool) (s : Source) : Option (Token × Source) := do
  let (t, s) ← if (s.rest.drop 1).head? = some '<' then verbatimTag? s else shortTag? s
  if endsWord s.rest || (flow && s.rest.head? = some ',') then return (t, s) else none

/-- Reads a part of a version: up to nine digits. -/
def versionPart? (s : Source) : Option (Nat × Source) :=
  let digits := s.rest.takeWhile Char.isDigit
  if digits.isEmpty || 9 < digits.length then none
  else some (Digits.toNat 10 digits, s.advanceBy digits.length)

/-- Reads the number of a version. -/
def version? (s : Source) : Option (Token × Source) := do
  let (major, s) ← versionPart? s
  if s.rest.head? != some '.' then none
  let (minor, s) ← versionPart? s.advance
  return (.version major minor, s)

/-- Reads a handle and what it stands for. -/
def handleMeaning? (s : Source) : Option (Token × Source) := do
  let (handle, s) ← tagHandle? s
  if handle != ['!'] && (handle.length < 2 || handle.getLast? != some '!') then none
  if !s.rest.head?.any isSpace then none
  let (meaning, s) ← tagSuffix? true (s.skipWhile isSpace)
  if meaning.isEmpty || !endsWord s.rest then none
  else return (.tagHandle (String.ofList handle) (String.ofList meaning), s)

/-- Reads a directive; the source begins with its percent sign. -/
def directive? (s : Source) : Option (Token × Source) := do
  let name := s.advance.rest.takeWhile isNameChar
  let s := s.advanceBy (name.length + 1)
  if !endsWord s.rest then none
  let s := s.skipWhile isSpace
  let (t, s) ←
    if name == ['Y', 'A', 'M', 'L'] then version? s
    else if name == ['T', 'A', 'G'] then handleMeaning? s
    else none
  return (t, ← s.finishLine?)

end Token

end Yaml

end SyntaxHue
