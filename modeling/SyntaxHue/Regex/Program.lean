import SyntaxHue.Regex.Regular

/-!
# Programs with a way back

An expression with references, look-around or atomic parts is laid out as a `Program`. Its
regular parts are matched as wholes: a `Part` finds its first match and no other.
-/

namespace SyntaxHue

/-- A program. -/
inductive Program where
  | empty
  | one (set : CharClass)
  | assertion (a : Assertion)
  /-- The first match of a regular part. -/
  | part (p : Part)
  | seq (a b : Program)
  /-- First `a`, then `b`. -/
  | alt (a b : Program)
  | group (n : Nat) (e : Program)
  /-- Any number of times `e`, as often as possible first if `greedy`. -/
  | star (greedy : Bool) (e : Program)
  /-- At least `lo` and at most `hi` times `e`; `hi` times if that is less. -/
  | times (lo : Nat) (hi : Option Nat) (greedy : Bool) (e : Program)
  /-- At least `lo` times `e`, which may match nothing. The loop ends where a pass begins that
      the last one has not moved away from. -/
  | passes (lo : Nat) (greedy : Bool) (e : Program)
  /-- The first match of `e`. -/
  | atomic (e : Program)
  /-- A match of `e`, without moving. -/
  | stay (e : Program)
  /-- No match of `e`. -/
  | refuse (e : Program)
  /-- Moves back by some characters. -/
  | back (width : Nat)
  /-- Moves back over a match of a part that is read from right to left. The groups are those of
      the part `ahead`, which is matched from there up to here. -/
  | backOver (p : Part) (ahead : Option Part)
  | backref (n : Nat) (anyCase : Bool)
  | keepOut
  | searchStart
  | isSet (n : Nat)
  | cond (test yes no : Program)

namespace Program

/-- Programs in a row. -/
def row : List Program → Program
  | [] => .empty
  | [a] => a
  | a :: as => .seq a (row as)

/-- A choice between programs, the preferred ones first. -/
def choice : List Program → Program
  | [] => .empty
  | [a] => a
  | a :: as => .alt a (choice as)

/-- At most one `e`. -/
def optional (greedy : Bool) (e : Program) : Program :=
  if greedy then .alt e .empty else .alt .empty e

/-- At least `lo` and at most `hi` times `e`. -/
def repeated (lo : Nat) (hi : Option Nat) (greedy maybeEmpty : Bool) (e : Program) : Program :=
  match hi with
  | none =>
    if maybeEmpty then .passes lo greedy e
    else if lo = 0 then .star greedy e
    else if lo = 1 then .seq e (.star greedy e)
    else .times lo none greedy e
  | some hi => .times lo (some hi) greedy e

/-- A measure of the work in a program that is done without a choice. -/
def size : Program → Nat
  | empty | one _ | assertion _ | part _ | back _ | backOver .. | backref .. | keepOut
  | searchStart | isSet _ => 1
  | seq a b | alt a b => a.size + b.size + 1
  | cond a b c => a.size + b.size + c.size + 1
  | group _ e | star _ e | atomic e | stay e | refuse e => e.size + 2
  | times lo _ _ e | passes lo _ e => (lo + 1) * (e.size + 2)

end Program

end SyntaxHue
