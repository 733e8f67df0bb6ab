import SyntaxHue.Yaml.Token

/-!
# From text to tokens

The scanner keeps the indentation of the blocks that are open, and for each level of brackets
the place where a key may have begun. Only the colon behind a key shows that it was one: then
the tokens for the key, and for the block that it opens, go in front of it.
-/

namespace SyntaxHue

namespace Yaml

/-- A place where a key may have begun. -/
structure KeyStart where
  /-- Whether the block cannot go on without a key here. -/
  required : Bool
  /-- The number of tokens before the place. -/
  number : Nat
  index : Nat
  line : Nat
  column : Nat

/-- The state of the scanner. -/
structure Scanner where
  source : Source
  /-- The column of the innermost block, or -1 outside of all blocks. -/
  indent : Int := -1
  /-- The columns of the blocks around it, innermost first. -/
  outer : List Int := []
  /-- Where a key may have begun, outside of the innermost brackets. -/
  start : Option KeyStart := none
  /-- The same for the levels of brackets around them, innermost first. -/
  starts : List (Option KeyStart) := []
  /-- Whether a key may begin here. -/
  keyAllowed : Bool := true
  tokens : Array Token := #[]

namespace Scanner

/-- Whether the scanner is inside brackets. -/
def inFlow (c : Scanner) : Bool :=
  !c.starts.isEmpty

def emit (c : Scanner) (t : Token) : Scanner :=
  { c with tokens := c.tokens.push t }

/-- Skips blanks, comments and line breaks. After a line break outside of brackets a key may
    begin, and a tab may not stand for indentation. -/
def skipBlank : Nat → Scanner → Scanner
  | 0, c => c
  | fuel + 1, c =>
    let s := c.source
    match s.rest with
    | [] => c
    | x :: _ =>
      if x = '\uFEFF' && s.index = 0 then skipBlank fuel { c with source := s.advance }
      else if x = ' ' || (x = '\t' && (c.inFlow || !c.keyAllowed)) then
        skipBlank fuel { c with source := s.advance }
      else if x = '#' then skipBlank fuel { c with source := s.skipWhile (!isBreak ·) }
      else if isBreak x then
        skipBlank fuel
          { c with source := s.newLine.2, keyAllowed := c.keyAllowed || !c.inFlow }
      else c

/-- Whether a key that began at `k` can no longer be ended: keys are on one line and not long. -/
def isStale (s : Source) (k : KeyStart) : Bool :=
  k.line < s.line || k.index + 1024 < s.index

/-- Forgets a start that can no longer be one of a key. -/
def dropStale? (s : Source) : Option KeyStart → Option (Option KeyStart)
  | none => some none
  | some k =>
    if !isStale s k then some (some k)
    else if k.required then none
    else some none

/-- Forgets all starts that can no longer be ones of keys. -/
def dropAllStale? (c : Scanner) : Option Scanner := do
  let start ← dropStale? c.source c.start
  let starts ← c.starts.mapM (dropStale? c.source)
  return { c with start, starts }

/-- Closes blocks that lie further in than `column`. There are none inside brackets. -/
def closeBlocks (c : Scanner) (column : Int) : Scanner :=
  if c.inFlow then c else go c.outer c
where
  /-- `outer` are the columns around the block that is closed next. -/
  go : List Int → Scanner → Scanner
    | outer, c =>
      if c.indent ≤ column then c
      else
        match outer with
        | [] => { c with indent := -1, tokens := c.tokens.push .blockEnd }
        | i :: rest =>
          go rest { c with indent := i, outer := rest, tokens := c.tokens.push .blockEnd }

/-- Opens a block at `column` if that lies further in. The token for it becomes the one with
    `number`. -/
def openBlock (c : Scanner) (column : Nat) (number : Nat) (t : Token) : Scanner :=
  if c.inFlow || (column : Int) ≤ c.indent then c
  else { c with
    indent := column
    outer := c.indent :: c.outer
    tokens := c.tokens.insertIdxIfInBounds number t }

/-- Notes that a key may begin here. -/
def saveStart? (c : Scanner) : Option Scanner :=
  if !c.keyAllowed then some c
  else
    let s := c.source
    let required := !c.inFlow && c.indent = s.column
    if c.start.any (·.required) then none
    else some { c with start := some ⟨required, c.tokens.size, s.index, s.line, s.column⟩ }

/-- Forgets the start of a key. -/
def dropStart? (c : Scanner) : Option Scanner :=
  if c.start.any (·.required) then none else some { c with start := none }

/-- Reads an anchor, alias, tag or quoted scalar. -/
def fetchContent? (c : Scanner) (read : Source → Option (Token × Source)) : Option Scanner := do
  let c ← c.saveStart?
  let (t, source) ← read c.source
  return { c.emit t with source, keyAllowed := false }

/-- Reads a plain scalar. -/
def fetchPlain? (c : Scanner) : Option Scanner := do
  let c ← c.saveStart?
  let (text, broken, source) ← plain? c.inFlow (c.indent + 1) c.source
  return { c.emit (.scalar true text) with source, keyAllowed := broken }

/-- Reads a block scalar. -/
def fetchBlock? (c : Scanner) (folded : Bool) : Option Scanner := do
  let c ← c.dropStart?
  let (text, source) ← block? folded c.indent c.source
  return { c.emit (.scalar false text) with source, keyAllowed := true }

/-- Reads the mark of the start or end of a document. -/
def fetchDocumentMark? (c : Scanner) (t : Token) : Option Scanner := do
  let c ← (c.closeBlocks (-1)).dropStart?
  return { c.emit t with source := c.source.advanceBy 3, keyAllowed := false }

/-- Reads a directive. -/
def fetchDirective? (c : Scanner) : Option Scanner := do
  let c ← (c.closeBlocks (-1)).dropStart?
  let (t, source) ← Token.directive? c.source
  return { c.emit t with source, keyAllowed := false }

/-- Reads an opening bracket. -/
def openFlow? (c : Scanner) (t : Token) : Option Scanner := do
  let c ← c.saveStart?
  return { c.emit t with
    source := c.source.advance, start := none, starts := c.start :: c.starts,
    keyAllowed := true }

/-- Reads a closing bracket. -/
def closeFlow? (c : Scanner) (t : Token) : Option Scanner := do
  let c ← c.dropStart?
  let (start, starts) := match c.starts with
    | [] => (none, [])
    | start :: starts => (start, starts)
  return { c.emit t with source := c.source.advance, start, starts, keyAllowed := false }

/-- Reads a comma between items. -/
def fetchFlowEntry? (c : Scanner) : Option Scanner := do
  let c ← c.dropStart?
  return { c.emit .flowEntry with source := c.source.advance, keyAllowed := true }

/-- Opens a block for the indicator here, if indicators may stand here. -/
def openBlockHere? (c : Scanner) (t : Token) : Option Scanner :=
  if c.inFlow then some c
  else if !c.keyAllowed then none
  else some (c.openBlock c.source.column c.tokens.size t)

/-- Reads the hyphen of an item. -/
def fetchBlockEntry? (c : Scanner) : Option Scanner := do
  let c ← c.openBlockHere? .blockSequence
  let c ← c.dropStart?
  return { c.emit .blockEntry with source := c.source.advance, keyAllowed := true }

/-- Reads the question mark of a key. -/
def fetchKey? (c : Scanner) : Option Scanner := do
  let c ← c.openBlockHere? .blockMapping
  let c ← c.dropStart?
  return { c.emit .key with source := c.source.advance, keyAllowed := !c.inFlow }

/-- Reads the colon of a value. If a key may have begun, it did. -/
def fetchValue? (c : Scanner) : Option Scanner := do
  let c ← match c.start with
    | some k =>
      let c := { c with start := none, tokens := c.tokens.insertIdxIfInBounds k.number .key }
      some { c.openBlock k.column k.number .blockMapping with keyAllowed := false }
    | none => do
      let c ← c.openBlockHere? .blockMapping
      some { c with keyAllowed := !c.inFlow }
  return { c.emit .value with source := c.source.advance }

/-- The characters that never begin a plain scalar. -/
def indicators : List Char :=
  [',', '[', ']', '{', '}', '#', '&', '*', '!', '|', '>', '\'', '"', '%', '@', '\x60']

/-- Whether a plain scalar can begin with `cs`. -/
def startsPlain (flow : Bool) : List Char → Bool
  | [] => false
  | c :: cs =>
    if c = '-' then !cs.head?.any isSpace
    else if c = '?' || c = ':' then !flow && !endsWord cs
    else !isSpace c && !isBreak c &&
      !indicators.contains c

/-- Reads the token that begins with `x`; `cs` is what follows. -/
def fetchAt? (c : Scanner) (x : Char) (cs : List Char) : Option Scanner :=
  let s := c.source
  if s.column = 0 && x = '%' then c.fetchDirective?
  else if s.column = 0 && s.startsWithThree '-' then c.fetchDocumentMark? .documentStart
  else if s.column = 0 && s.startsWithThree '.' then c.fetchDocumentMark? .documentEnd
  else if x = '[' then c.openFlow? .flowSequence
  else if x = '{' then c.openFlow? .flowMapping
  else if x = ']' then c.closeFlow? .flowSequenceEnd
  else if x = '}' then c.closeFlow? .flowMappingEnd
  else if x = ',' then c.fetchFlowEntry?
  else if x = '-' && endsWord cs then c.fetchBlockEntry?
  else if x = '?' && (c.inFlow || endsWord cs) then c.fetchKey?
  else if x = ':' && (c.inFlow || endsWord cs) then c.fetchValue?
  else if x = '*' then c.fetchContent? fun s =>
    (Token.anchorName? s.advance).map fun (name, s) => (.reference name, s)
  else if x = '&' then c.fetchContent? fun s =>
    (Token.anchorName? s.advance).map fun (name, s) => (.anchor name, s)
  else if x = '!' then c.fetchContent? (Token.tag? c.inFlow)
  else if x = '|' && !c.inFlow then c.fetchBlock? false
  else if x = '>' && !c.inFlow then c.fetchBlock? true
  else if x = '\'' || x = '"' then c.fetchContent? fun s =>
    (quoted? x s).map fun (text, s) => (.scalar false text, s)
  else if startsPlain c.inFlow (x :: cs) then c.fetchPlain?
  else none

/-- Reads tokens up to the end of the text; each takes at least one character. -/
def run? : Nat → Scanner → Option Scanner
  | 0, _ => none
  | fuel + 1, c => do
    let c ← (skipBlank (c.source.rest.length + 1) c).dropAllStale?
    let c := c.closeBlocks c.source.column
    match c.source.rest with
    | [] => (c.closeBlocks (-1)).dropStart?
    | x :: cs => (c.fetchAt? x cs).bind (run? fuel)

end Scanner

namespace Token

/-- The tokens of a text. -/
def scan? (cs : List Char) : Option (List Token) :=
  if cs.all isAllowed then
    (Scanner.run? (cs.length + 1) { source := { rest := cs } }).map (·.tokens.toList)
  else none

end Token

end Yaml

end SyntaxHue
