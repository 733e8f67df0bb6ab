import SyntaxHue.Regex.Backtracking
import SyntaxHue.Regex.Plan
import SyntaxHue.Regex.Reader

/-!
# Compiled regular expressions

`Regex.compile` reads a pattern and plans its program. `Regex.search` finds the leftmost match
from a place on; of the matches that start there it is the one that comes first in the order of
the alternatives.
-/

namespace SyntaxHue

/-- What a search is made with. -/
inductive Matcher where
  | regular (p : Part)
  | backtracking (e : Program)

/-- A regular expression that is ready to be searched for. -/
structure Regex where
  matcher : Matcher
  /-- The number of groups. -/
  groups : Nat

/-- What a search finds. -/
structure Match where
  /-- The whole match. -/
  span : Span
  /-- The groups from the first on. A group that took no part is `none`. -/
  groups : List (Option Span)

/-- A search that cannot be carried out: a reference asks for the text of a group that has been
    entered again and therefore starts behind its end. -/
structure CrossedGroup where
deriving DecidableEq, Repr

namespace Regex

/-- The failures that a search survives before it gives up. -/
def failureLimit : Nat := 1000000

/-- Puts the match into group 0. A look-ahead that ends the expression follows the match, and
    need not be kept apart from it. -/
def mark (e : Expr) : Expr :=
  match e with
  | .seq es =>
    match es.getLast? with
    | some (.look .ahead true tail) => .seq [.group 0 (sequence es.dropLast), tail]
    | _ => .group 0 e
  | _ => .group 0 e
where
  /-- Expressions in a row. -/
  sequence : List Expr → Expr
    | [e] => e
    | es => .seq es

/-- Compiles a pattern. -/
def compile (pattern : List Char) : Except RegexError Regex := do
  let read ← Expr.read pattern
  let marked := mark read.expr
  if marked.needsWayBack read.refs then
    return ⟨.backtracking (← marked.plan read.refs false), read.groups⟩
  else return ⟨.regular (← marked.toPart false), marked.lastGroup⟩

/-- What the slots at the end of a search say. If the start was moved behind the end, the match
    is empty. -/
def report (r : Regex) (slots : Slots) : Option Match :=
  (slots.span? 0).map fun span =>
    let start := if span.stop.offset < span.start.offset then span.stop else span.start
    ⟨⟨start, span.stop⟩, (List.range r.groups).map fun n => slots.span? (n + 1)⟩

/-- The leftmost match from `here` on, if it is found within `limit` failures. -/
def searchWithin (limit : Nat) (r : Regex) (here : Cursor) :
    Except CrossedGroup (Option Match) :=
  let bytes := here.offset + byteLength here.after
  match r.matcher with
  | .regular p => .ok ((p.search bytes here).bind fun o => r.report o.slots)
  | .backtracking e =>
    let fuel := Backtracking.steps limit e.size
    match Backtracking.search ⟨here.offset, bytes⟩ fuel e limit here.after here with
    | .found _ slots => .ok (r.report slots)
    | .failed | .gaveUp => .ok none
    | .crossed => .error ⟨⟩

/-- The leftmost match from `here` on. -/
def search (r : Regex) (here : Cursor) : Except CrossedGroup (Option Match) :=
  r.searchWithin failureLimit here

end Regex

end SyntaxHue
