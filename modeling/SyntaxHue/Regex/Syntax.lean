import SyntaxHue.Regex.CharClass
import SyntaxHue.Text.Cursor

/-!
# Regular expressions

The expression that a pattern stands for, with flags resolved, groups numbered and names gone.
-/

namespace SyntaxHue

/-- A condition on a place that consumes nothing. -/
inductive Assertion where
  | textStart
  | textEnd
  /-- The end of the text, or a line feed with nothing but line feeds behind it. -/
  | textEndBeforeLineFeeds
  | lineStart
  | lineEnd
  | wordBoundary
  | notWordBoundary
  | wordStart
  | wordEnd
  /-- No word character before the place. -/
  | wordStartHalf
  /-- No word character after the place. -/
  | wordEndHalf
deriving DecidableEq, Repr

/-- The side of a place on which a look-around looks. -/
inductive Side where
  | ahead
  | behind
deriving DecidableEq, Repr

/-- How much text a match takes, in characters. -/
structure Extent where
  /-- The least number of characters. -/
  least : Nat
  /-- Whether all matches take that many. -/
  fixed : Bool
deriving DecidableEq, Repr

/-- A regular expression. -/
inductive Expr where
  | empty
  | one (set : CharClass)
  | assertion (a : Assertion)
  | seq (es : List Expr)
  /-- Alternatives, the preferred ones first. -/
  | alt (es : List Expr)
  | group (n : Nat) (e : Expr)
  /-- At least `lo` and at most `hi` times `e`. -/
  | repetition (lo : Nat) (hi : Option Nat) (greedy : Bool) (e : Expr)
  | look (side : Side) (wanted : Bool) (e : Expr)
  /-- The text of group `n` again. `extent` is what is known of that text where the reference
      stands. -/
  | backref (n : Nat) (anyCase : Bool) (extent : Extent)
  /-- The first match of `e`, without a way back into it. -/
  | atomic (e : Expr)
  /-- Makes the match start here. -/
  | keepOut
  /-- The place where the search began. -/
  | searchStart
  /-- Holds if group `n` has a text. -/
  | isSet (n : Nat)
  /-- `yes` after a match of `test`, else `no`. -/
  | cond (test yes no : Expr)

namespace Assertion

/-- Whether a word character stands before and after the place. -/
def sides (c : Cursor) : Bool × Bool :=
  (c.prevChar?.any isWord, c.nextChar?.any isWord)

/-- Whether the assertion holds at `c`. -/
def holds (a : Assertion) (c : Cursor) : Bool :=
  match a with
  | textStart => c.before.isEmpty
  | textEnd => c.after.isEmpty
  | textEndBeforeLineFeeds => c.after.all (· = '\n')
  | lineStart => c.prevChar?.all (· = '\n')
  | lineEnd => c.nextChar?.all (· = '\n')
  | wordBoundary => (sides c).1 != (sides c).2
  | notWordBoundary => (sides c).1 == (sides c).2
  | wordStart => !(sides c).1 && (sides c).2
  | wordEnd => (sides c).1 && !(sides c).2
  | wordStartHalf => !(sides c).1
  | wordEndHalf => !(sides c).2

/-- Whether the assertion may stand in a regular program. -/
def isRegular : Assertion → Bool
  | textStart | textEnd | lineStart | lineEnd => true
  | _ => false

end Assertion

namespace Extent

/-- The extent of what takes no text. -/
def none : Extent := ⟨0, true⟩

/-- The extent of something that nothing is known of. -/
def unknown : Extent := ⟨0, false⟩

/-- The extent of two parts in a row. -/
def add (a b : Extent) : Extent :=
  ⟨a.least + b.least, a.fixed && b.fixed⟩

/-- The extent of a choice between two. -/
def or (a b : Extent) : Extent :=
  ⟨min a.least b.least, a.fixed && b.fixed && a.least == b.least⟩

end Extent

namespace Expr

mutual

/-- How much text a match of the expression takes. -/
def extent : Expr → Extent
  | empty | assertion _ | look .. | keepOut | searchStart | isSet _ => .none
  | one _ => ⟨1, true⟩
  | seq es => extentSum es
  | alt es => extentChoice es
  | group _ e | atomic e => e.extent
  | repetition lo hi _ e => ⟨e.extent.least * lo, e.extent.fixed && hi == some lo⟩
  | backref _ _ extent => extent
  | cond test yes no =>
    let taken := test.extent.add yes.extent
    ⟨test.extent.least + min yes.extent.least no.extent.least,
      taken.fixed && no.extent.fixed && taken.least == no.extent.least⟩

/-- The extent of expressions in a row. -/
def extentSum : List Expr → Extent
  | [] => .none
  | e :: es => e.extent.add (extentSum es)

/-- The extent of a choice. -/
def extentChoice : List Expr → Extent
  | [] => .none
  | [e] => e.extent
  | e :: es => e.extent.or (extentChoice es)

end

mutual

/-- Whether the expression cannot be a regular program. `refs` are the groups that are referred
    to: their text may have to be found again, so they have to be left open to change. -/
def needsWayBack (refs : List Nat) : Expr → Bool
  | empty | one _ => false
  | assertion a => !a.isRegular
  | seq es | alt es => anyNeedsWayBack refs es
  | group n e => refs.contains n || e.needsWayBack refs
  | repetition _ _ _ e => e.needsWayBack refs
  | look .. | backref .. | atomic _ | keepOut | searchStart | isSet _ | cond .. => true

/-- Whether one of the expressions cannot be a regular program. -/
def anyNeedsWayBack (refs : List Nat) : List Expr → Bool
  | [] => false
  | e :: es => e.needsWayBack refs || anyNeedsWayBack refs es

end

mutual

/-- The groups in the expression. -/
def groups : Expr → List Nat
  | empty | one _ | assertion _ | backref .. | keepOut | searchStart | isSet _ => []
  | seq es | alt es => groupsOf es
  | group n e => n :: e.groups
  | repetition _ _ _ e | look _ _ e | atomic e => e.groups
  | cond test yes no => test.groups ++ yes.groups ++ no.groups

/-- The groups in some expressions. -/
def groupsOf : List Expr → List Nat
  | [] => []
  | e :: es => e.groups ++ groupsOf es

end

mutual

/-- The highest group of a regular expression. What is repeated no times has no groups. -/
def lastGroup : Expr → Nat
  | seq es | alt es => lastGroupOf es
  | group n e => max n e.lastGroup
  | repetition _ hi _ e => if hi = some 0 then 0 else e.lastGroup
  | _ => 0

/-- The highest group of some regular expressions. -/
def lastGroupOf : List Expr → Nat
  | [] => 0
  | e :: es => max e.lastGroup (lastGroupOf es)

end

end Expr

end SyntaxHue
