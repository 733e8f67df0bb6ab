import SyntaxHue.Text.Digits

/-!
# Decimal numbers

A decimal is a whole number times a power of ten. Numbers in data files are kept in this form,
so that it can be told exactly how they compare with the numbers of 64-bit floating point.
-/

namespace SyntaxHue

/-- The number `mantissa * 10 ^ exponent`. -/
structure Decimal where
  mantissa : Nat
  exponent : Int
deriving DecidableEq, Repr

namespace Decimal

/-- The number with the given digits before and after the point, times a power of ten. -/
def ofDigits (whole fraction : List Char) (exponent : Int) : Decimal :=
  ⟨Digits.toNat 10 (whole ++ fraction), exponent - fraction.length⟩

/-- The power of two with the given exponent, and one if it is negative. -/
def twos (exponent : Int) : Nat :=
  Nat.pow 2 exponent.toNat

/-- The power of ten with the given exponent, and one if it is negative. -/
def tens (exponent : Int) : Nat :=
  Nat.pow 10 exponent.toNat

/-- The least number that is closer to `2 ^ 1024` than to any number below it in floating
    point. -/
def infinite : Nat := twos 1024 - twos 970

/-- Whether the number is too large for floating point. Only numbers with 309 digits before the
    point have to be looked at closely. -/
def overflows (d : Decimal) : Bool :=
  let places := (Nat.repr d.mantissa).length + d.exponent
  if d.mantissa = 0 || places < 309 then false
  else if 309 < places then true
  else infinite * tens (-d.exponent) ≤ d.mantissa * tens d.exponent

end Decimal

end SyntaxHue
