import SyntaxHue.Text.Digits

/-!
# Ranges of code points

Sets of characters as lists of ranges, both ends included. A long list is kept as a text. Its
words stand for the ranges in order: the number of code points between a range and the one before
it, and behind a hyphen the number of code points in it if that is not one.
-/

namespace SyntaxHue

/-- Whether one of the ranges has `c`, both ends included. -/
def inRanges (ranges : List (Nat × Nat)) (c : Char) : Bool :=
  ranges.any fun r => r.1 ≤ c.toNat && c.toNat ≤ r.2

/-- Reads a text of ranges. `next` is the code point behind the last range, `gap` the digits read
    of the gap, and `count?` those of the length. -/
def readRangesFrom : List Char → Nat → Nat → Option Nat → List (Nat × Nat)
  | [], next, gap, count? => [range next gap count?]
  | c :: cs, next, gap, count? =>
    if c = ' ' then
      let r := range next gap count?
      r :: readRangesFrom cs (r.2 + 1) 0 none
    else if c = '-' then readRangesFrom cs next gap (some 0)
    else
      let digit := (Digits.value? c).getD 0
      match count? with
      | none => readRangesFrom cs next (10 * gap + digit) none
      | some count => readRangesFrom cs next gap (some (10 * count + digit))
where
  /-- The range that a word stands for. -/
  range (next gap : Nat) (count? : Option Nat) : Nat × Nat :=
    (next + gap, next + gap + count?.getD 1 - 1)

/-- The ranges of a text, which may be cut into pieces. A text without words has none. -/
def readRanges (text : List String) : List (Nat × Nat) :=
  if text.isEmpty then [] else readRangesFrom (text.flatMap String.toList) 0 0 none

end SyntaxHue
