import SyntaxHue.Grammar.Store
import SyntaxHue.Token.Tree

/-!
# The tokenizer

A text starts as one raw fragment. The patterns of a grammar are applied one after the other, in
order of priority, and each one splits the fragments that are left around what it finds. Tokens
are never split. A pattern that looks at the whole input may cover several nodes; what follows
its token is then scanned again with the patterns before it, up to the reach of the match.

A level works on the list of its nodes from some place on. `scan` applies one pattern and
`passes i` the first `i` patterns; to scan again after a match of pattern `i` is `passes i`.
-/

namespace SyntaxHue

namespace Tokenizer

/-- A part of a level that is being scanned. -/
structure Frame where
  /-- The nodes of the part, up to the end of the text. -/
  nodes : List Node
  /-- Where the first of them starts in the text. -/
  here : Cursor
  /-- The number of nodes in the whole level. -/
  count : Nat
  /-- The offset from which on nothing is scanned. -/
  reach : Option Nat

/-- A pattern with the kind of its tokens. -/
structure Candidate where
  kind : String
  pattern : Pattern

/-- The patterns of a grammar, in order of priority. -/
def candidates (rules : Table Rule) : Array Candidate :=
  (rules.entries.flatMap fun entry => entry.2.map fun pattern => ⟨entry.1, pattern⟩).toArray

/-- Nodes that are replaced by a token and the raw text around it. -/
structure Hit where
  /-- The nodes between the place of the scan and the replaced ones. -/
  passed : List Node
  /-- The number of nodes that are replaced. -/
  covered : Nat
  /-- The nodes behind the replaced ones. -/
  rest : List Node
  /-- The text of the replaced nodes before the token, of the token, and behind it. -/
  before : List Char
  matched : List Char
  after : List Char
  /-- Where the token starts and where it ends. -/
  start : Cursor
  stop : Cursor
  /-- The offset where the replaced nodes end. -/
  reach : Nat

/-- What a pattern makes of a fragment. -/
inductive Look where
  /-- The pattern has nothing more to do. -/
  | stop
  /-- Nothing is replaced up to `rest`, which starts at `here`. -/
  | skip (passed rest : List Node) (here : Cursor)
  | hit (h : Hit)

/-- Looks for a pattern in the fragment `s` alone. -/
def lookInFragment (p : Pattern) (s : String) (more : List Node) (here : Cursor) :
    Except Fault Look := do
  match ← p.find (Cursor.start s.toList) with
  | none => return .skip [.text s] more (here.forward s.utf8ByteSize)
  | some m =>
    let start := here.forward m.span.start.offset
    return .hit {
      passed := []
      covered := 1
      rest := more
      before := m.span.start.before.reverse
      matched := m.span.chars
      after := m.span.stop.after
      start := start
      stop := start.forward m.span.length
      reach := here.offset + s.utf8ByteSize }

/-- Passes the nodes that end at or before offset `goal`; the first one starts at `offset`.
    Returns those nodes, the others, and where the others start. -/
def passUpTo (goal : Nat) : List Node → Nat → List Node × List Node × Nat
  | [], offset => ([], [], offset)
  | node :: rest, offset =>
    if offset + node.length ≤ goal then
      let (passed, left, offset) := passUpTo goal rest (offset + node.length)
      (node :: passed, left, offset)
    else ([], node :: rest, offset)

/-- Covers the nodes that start before offset `goal`, and the raw text right behind them. Fails if
    a token would be split. Returns the number of nodes, the others, and where those start. -/
def coverUpTo (goal : Nat) : List Node → Nat → Option (Nat × List Node × Nat)
  | [], offset => some (0, [], offset)
  | node :: rest, offset =>
    if offset < goal || !node.isToken then
      if node.isToken && goal < offset + node.length then none
      else (coverUpTo goal rest (offset + node.length)).map fun (n, left, offset) =>
        (n + 1, left, offset)
    else some (0, node :: rest, offset)

/-- Looks for a pattern in the whole input from `here` on, where `nodes` start. -/
def lookInInput (p : Pattern) (nodes : List Node) (here : Cursor) : Except Fault Look := do
  match ← p.find here with
  | none => return .stop
  | some m =>
    if m.span.start.after.isEmpty then return .stop
    else
      let (passed, rest, offset) := passUpTo m.span.start.offset nodes here.offset
      match rest with
      | [] => return .stop
      | first :: others =>
        let start := here.forward (offset - here.offset)
        let skip : Look := .skip (passed ++ [first]) others (start.forward first.length)
        if first.isToken then return skip
        else
          match coverUpTo m.span.stop.offset rest offset with
          | none => return skip
          | some (covered, left, reach) =>
            if m.span.start.offset < start.offset then throw .startsBehind
            return .hit {
              passed := passed
              covered := covered
              rest := left
              before := Span.chars ⟨start, m.span.start⟩
              matched := m.span.chars
              after := Span.takeBytes (reach - m.span.stop.offset) m.span.stop.after
              start := m.span.start
              stop := m.span.stop
              reach := reach }

/-- Looks for a pattern at the fragment `s`, which starts at `here` and is followed by `more`. -/
def look (p : Pattern) (s : String) (more : List Node) (here : Cursor) : Except Fault Look :=
  match p.mode with
  | .fragment => lookInFragment p s more here
  | .input => lookInInput p (.text s :: more) here

/-- Raw text, unless it is empty. -/
def raw (cs : List Char) : List Node :=
  if cs.isEmpty then [] else [.text (String.ofList cs)]

/-- Raises a reach to `offset`. -/
def raise (offset : Nat) (reach : Option Nat) : Option Nat :=
  reach.map fun r => max r offset

/-- What is the same for all patterns of a level. -/
structure Level where
  /-- The length of the text in bytes. -/
  bytes : Nat
  rules : Array Candidate
  /-- Tokenizes the text of a token with its inner grammar. -/
  inner : GrammarId → List Char → Except Fault (List Node)

namespace Level

/-- The token that a pattern makes of a text. -/
def token (l : Level) (c : Candidate) (matched : List Char) : Except Fault Node := do
  let content ← match c.pattern.inside with
    | some grammar => Content.nested <$> l.inner grammar matched
    | none => pure (Content.text (String.ofList matched))
  return .token ⟨c.kind, content, c.pattern.aliases, byteLength matched⟩

/-- Applies a pattern from the start of a frame on. `done` are the nodes that were passed, last
    first, and `again` scans what follows a token with the patterns before this one. A level
    with more nodes than bytes is not scanned on. -/
def scan (l : Level) (c : Candidate) (again : Frame → Except Fault Frame) :
    Nat → List Node → Frame → Except Fault Frame
  | 0, done, f => .ok { f with nodes := done.reverse ++ f.nodes }
  | fuel + 1, done, f =>
    match f.nodes with
    | [] => .ok { f with nodes := done.reverse }
    | node :: more =>
      if f.reach.any (· ≤ f.here.offset) || l.bytes < f.count then
        .ok { f with nodes := done.reverse ++ f.nodes }
      else
        match node with
        | .token t =>
          scan l c again fuel (node :: done)
            { f with nodes := more, here := f.here.forward t.length }
        | .text s => do
          match ← look c.pattern s more f.here with
          | .stop => return { f with nodes := done.reverse ++ f.nodes }
          | .skip passed rest here =>
            scan l c again fuel (passed.reverse ++ done) { f with nodes := rest, here := here }
          | .hit h =>
            let token ← l.token c h.matched
            let before := raw h.before
            let behind := raw h.after ++ h.rest
            let count := f.count + before.length + 1 + (raw h.after).length - h.covered
            let reach := raise h.reach f.reach
            let done := token :: (before.reverse ++ h.passed.reverse ++ done)
            if 1 < h.covered then
              let sub ← again ⟨token :: behind, h.start, count, some h.reach⟩
              scan l c again fuel done
                ⟨sub.nodes.drop 1, h.stop, sub.count, raise (sub.reach.getD 0) reach⟩
            else scan l c again fuel done ⟨behind, h.stop, count, reach⟩

/-- Applies the first `i` patterns, one after the other, each from the start of the frame on. -/
def passes (l : Level) : Nat → Frame → Except Fault Frame
  | 0, f => .ok f
  | i + 1, f => do
    let f ← l.passes i f
    match l.rules[i]? with
    | none => return f
    | some c =>
      let g ← l.scan c (l.passes i) (l.bytes + 2) [] f
      return { g with here := f.here }

/-- The nodes of a level: all patterns applied to its text. -/
def run (l : Level) (text : List Char) : Except Fault (List Node) := do
  let f ← l.passes l.rules.size ⟨[.text (String.ofList text)], Cursor.start text, 1, none⟩
  return f.nodes

end Level

/-- Tokenizes a text with a grammar, at most `depth` levels deep. -/
def nested (s : Store) : Nat → GrammarId → List Char → Except Fault (List Node)
  | 0, _, _ => .error .endless
  | depth + 1, grammar, text =>
    Level.run ⟨byteLength text, candidates (s.effectiveRules grammar), nested s depth⟩ text

/-- Levels enough for every tokenization that ends: a text that is handed on gets no longer, so
    with more levels some grammar would be applied to the same text again. -/
def depthFor (s : Store) (bytes : Nat) : Nat :=
  (bytes + 1) * (s.slots.size + 1) + 1

end Tokenizer

namespace Store

/-- The token tree that a grammar makes of a text. -/
def tokenize (s : Store) (text : String) (grammar : GrammarId) : Except Fault (List Node) :=
  Tokenizer.nested s (Tokenizer.depthFor s text.utf8ByteSize) grammar text.toList

/-- The token tree that a language makes of a text, or `none` for an unknown language. -/
def tokenizeLanguage (s : Store) (text language : String) :
    Except Fault (Option (List Node)) :=
  match s.get? language with
  | none => .ok none
  | some grammar => some <$> s.tokenize text grammar

end Store

end SyntaxHue
