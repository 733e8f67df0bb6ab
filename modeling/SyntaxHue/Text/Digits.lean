/-!
# Digits

The values of digits in a base up to 16.
-/

namespace SyntaxHue

namespace Digits

/-- The value of a digit, in either case of the letters A to F. -/
def value? (c : Char) : Option Nat :=
  if '0' ≤ c ∧ c ≤ '9' then some (c.toNat - 48)
  else if 'a' ≤ c ∧ c ≤ 'f' then some (c.toNat - 87)
  else if 'A' ≤ c ∧ c ≤ 'F' then some (c.toNat - 55)
  else none

/-- Whether `c` is a digit of a base. -/
def isDigit (base : Nat) (c : Char) : Bool :=
  (value? c).any (· < base)

/-- The value of digits, the most significant one first. -/
def toNat (base : Nat) (cs : List Char) : Nat :=
  cs.foldl (fun n c => n * base + (value? c).getD 0) 0

/-- The number that `cs` is in a base, if it consists of digits and is not empty. -/
def toNat? (base : Nat) (cs : List Char) : Option Nat :=
  if !cs.isEmpty && cs.all (isDigit base) then some (toNat base cs) else none

/-- The digits of a base at the start of `cs`, and the rest. -/
def span (base : Nat) (cs : List Char) : List Char × List Char :=
  (cs.takeWhile (isDigit base), cs.dropWhile (isDigit base))

end Digits

end SyntaxHue
