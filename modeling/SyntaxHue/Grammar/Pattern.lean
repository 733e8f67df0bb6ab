import SyntaxHue.Regex.Search

/-!
# Patterns

A `Pattern` is a compiled regular expression with what the tokenizer has to know about it.
`Pattern.find` reports a match; for a pattern with look-behind the length of the first group is
cut off the front of the match. That cut fails if the group is longer than the match or ends
inside a character of it. A search can also fail by itself, at a reference to a group that has no
text in order.
-/

namespace SyntaxHue

/-- The number of a grammar in a store. -/
structure GrammarId where
  index : Nat
deriving DecidableEq, Repr, Inhabited

/-- What text a pattern is looked for in. -/
inductive ScanMode where
  /-- One fragment that no rule has taken. -/
  | fragment
  /-- The whole input, from the place that the scan has reached. -/
  | input
deriving DecidableEq, Repr

/-- A compiled pattern. -/
structure Pattern where
  source : String
  regex : Regex
  mode : ScanMode
  lookbehind : Bool
  aliases : List String
  inside : Option GrammarId

/-- A tokenization that cannot be carried out. -/
inductive Fault where
  /-- The first group of a match cannot be cut off its front. -/
  | badTrim
  /-- A pattern refers to a group that starts behind its end. -/
  | crossedGroup
  /-- A match starts before the place that the scan has reached. -/
  | startsBehind
  /-- Grammars that are nested in each other are applied to the same text without end. -/
  | endless
deriving DecidableEq, Repr

/-- What a pattern has found. -/
structure PatternMatch where
  /-- The match, after the cut. -/
  span : Span
  /-- The groups from the first on. A group that took no part is `none`. -/
  groups : List (Option Span)

namespace Span

/-- Moves the start `bytes` bytes forward, but not past the end or into a character. -/
def trim? (s : Span) (bytes : Nat) : Option Span :=
  if s.start.offset + bytes ≤ s.stop.offset then
    (go bytes s.start.after s.start).map fun start => ⟨start, s.stop⟩
  else none
where
  /-- The place `bytes` bytes on; `rest` is what follows the cursor. -/
  go : Nat → List Char → Cursor → Option Cursor
    | 0, _, c => some c
    | _ + 1, [], _ => none
    | bytes + 1, _ :: rest, c =>
      match c.next? with
      | some (x, there) =>
        if x.utf8Size ≤ bytes + 1 then go (bytes + 1 - x.utf8Size) rest there else none
      | none => none

end Span

namespace Pattern

/-- The first match in the text of the cursor, looked for from the cursor on. -/
def find (p : Pattern) (here : Cursor) : Except Fault (Option PatternMatch) :=
  match p.regex.search here with
  | .error _ => .error .crossedGroup
  | .ok none => .ok none
  | .ok (some m) =>
    match p.lookbehind, m.groups with
    | true, some group :: _ =>
      match m.span.trim? group.length with
      | some span => .ok (some ⟨span, m.groups⟩)
      | none => .error .badTrim
    | _, _ => .ok (some ⟨m.span, m.groups⟩)

/-- Whether two patterns were defined alike. -/
def sameAs (p q : Pattern) : Bool :=
  p.source == q.source && p.mode == q.mode && p.lookbehind == q.lookbehind &&
    p.aliases == q.aliases && p.inside == q.inside

end Pattern

end SyntaxHue
