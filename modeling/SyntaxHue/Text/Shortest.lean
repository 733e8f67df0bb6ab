import SyntaxHue.Text.Decimal

/-!
# Numbers of floating point as text

A number of floating point is written with the fewest digits that read back to it, and without
an exponent. It is compared with decimals exactly: it stands for all real numbers between the
points halfway to its neighbours.
-/

namespace SyntaxHue

/-- The number `mantissa * 2 ^ exponent`. -/
structure Binary where
  mantissa : Nat
  exponent : Int
  /-- Whether the next number below is half as far away as the next one above. -/
  narrowBelow : Bool

namespace Binary

open Decimal

/-- The size of a finite number of floating point, from its bits. -/
def ofBits (bits : UInt64) : Binary :=
  let exponent := ((bits >>> 52) &&& 0x7FF).toNat
  let fraction := (bits &&& 0xFFFFFFFFFFFFF).toNat
  if exponent = 0 then ⟨fraction, -1074, false⟩
  else ⟨twos 52 + fraction, (exponent : Int) - 1075, fraction = 0 && 1 < exponent⟩

/-- Compares `a * 10 ^ i` with `n * 2 ^ j`. -/
def compareScaled (a : Nat) (i : Int) (n : Nat) (j : Int) : Ordering :=
  compare (a * tens i * twos (-j)) (n * twos j * tens (-i))

/-- Whether a decimal reads back to the number: no other one is closer, or at the same distance
    if the mantissa is even. -/
def readsBack (x : Binary) (d : Decimal) : Bool :=
  let low := if x.narrowBelow then 4 * x.mantissa - 1 else 4 * x.mantissa - 2
  let high := 4 * x.mantissa + 2
  let even := x.mantissa % 2 == 0
  let fromLow := compareScaled d.mantissa d.exponent low (x.exponent - 2)
  let toHigh := compareScaled d.mantissa d.exponent high (x.exponent - 2)
  (fromLow == .gt || (even && fromLow == .eq)) && (toHigh == .lt || (even && toHigh == .eq))

/-- The number of places before the point, which is negative for small numbers: the least `k`
    such that the number is below `10 ^ k`. -/
def places (x : Binary) : Int :=
  let estimate := ((Nat.log2 x.mantissa : Int) + x.exponent) * 30103 / 100000
  let below (k : Int) := compareScaled 1 k x.mantissa x.exponent == .gt
  if below (estimate - 1) then estimate - 1
  else if below estimate then estimate
  else if below (estimate + 1) then estimate + 1
  else estimate + 2

/-- The whole number of steps `10 ^ exponent` in the number. -/
def stepsOf (x : Binary) (exponent : Int) : Nat :=
  x.mantissa * twos x.exponent * tens (-exponent) / (twos (-x.exponent) * tens exponent)

/-- Whether the number is nearer to the lower of the two decimals around it. A number in the
    middle belongs to the upper one. -/
def isNearLow (x : Binary) (low : Nat) (exponent : Int) : Bool :=
  compareScaled (2 * low + 1) exponent (2 * x.mantissa) x.exponent == .gt

/-- The nearest decimal with steps of `10 ^ exponent` that reads back. -/
def onGrid? (x : Binary) (exponent : Int) : Option Decimal :=
  let low : Decimal := ⟨x.stepsOf exponent, exponent⟩
  let high : Decimal := ⟨low.mantissa + 1, exponent⟩
  match x.readsBack low, x.readsBack high with
  | true, true => some (if x.isNearLow low.mantissa exponent then low else high)
  | true, false => some low
  | false, true => some high
  | false, false => none

/-- The shortest decimal that reads back, for a number that is not zero. It has at most 17
    digits. The first grid holds but one power of ten, which is just above the number. -/
def shortest (x : Binary) : Decimal :=
  let k := x.places
  ((List.range 18).findSome? fun n : Nat => x.onGrid? (k - n)).getD
    ⟨x.stepsOf (min 0 x.exponent), min 0 x.exponent⟩

/-- The number rounded to a whole one; the middle between two goes up. -/
def round (x : Binary) : Nat :=
  (2 * x.mantissa * twos x.exponent + twos (-x.exponent)) / (2 * twos (-x.exponent))

end Binary

namespace Decimal

/-- A decimal without an exponent. -/
def layout (d : Decimal) : List Char :=
  let digits := Nat.toDigits 10 d.mantissa
  if 0 ≤ d.exponent then digits ++ List.replicate d.exponent.toNat '0'
  else
    let behind := (-d.exponent).toNat
    let padded := List.replicate (behind + 1 - digits.length) '0' ++ digits
    padded.take (padded.length - behind) ++ '.' :: padded.drop (padded.length - behind)

end Decimal

namespace FloatText

/-- Whether a number of floating point has a minus sign. -/
def isNegative (x : Float) : Bool :=
  x.toBits >>> 63 == 1

/-- The size of a finite number. -/
def sizeOf (x : Float) : Binary :=
  Binary.ofBits x.toBits

/-- A number of floating point as text. -/
def text (x : Float) : String :=
  if x.isNaN then "NaN"
  else
    let size := if x.isInf then "inf" else
      let b := sizeOf x
      if b.mantissa = 0 then "0" else String.ofList b.shortest.layout
    if isNegative x then "-" ++ size else size

/-- The natural number nearest to a number, but at most `most`. What is no number is 0. -/
def toNat (most : Nat) (x : Float) : Nat :=
  if x.isNaN || isNegative x then 0
  else if x.isInf then most
  else min most (sizeOf x).round

end FloatText

end SyntaxHue
