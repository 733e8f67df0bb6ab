import SyntaxHue.Config.Value
import SyntaxHue.Toml.Text

/-!
# Numbers, dates and times

Whole numbers in four bases and of 64 bits, numbers of floating point, and dates and times,
which are kept as the text that they are usually written as.
-/

namespace SyntaxHue

namespace Toml

/-- Reads digits with single underscores between them. -/
def digitsFrom (base : Nat) : Nat → List Char → Option (List Char × List Char)
  | 0, _ => none
  | fuel + 1, cs =>
    match Digits.span base cs with
    | ([], _) => none
    | (ds, '_' :: rest) => (digitsFrom base fuel rest).map fun (more, cs) => (ds ++ more, cs)
    | (ds, rest) => some (ds, rest)

/-- Reads digits. -/
def digits? (base : Nat) (cs : List Char) : Option (List Char × List Char) :=
  digitsFrom base (cs.length + 1) cs

/-- Reads a sign, if there is one, and returns whether it is a minus. -/
def sign (cs : List Char) : Bool × List Char :=
  match cs with
  | '-' :: cs => (true, cs)
  | '+' :: cs => (false, cs)
  | cs => (false, cs)

/-- Reads the digits of a decimal number: a zero stands alone. -/
def whole? : List Char → Option (List Char × List Char)
  | '0' :: cs => some (['0'], cs)
  | cs => digits? 10 cs

/-- A whole number, if it takes at most 64 bits. -/
def integer? (negative : Bool) (n : Nat) : Option Config.Value :=
  if negative then if n ≤ Nat.pow 2 63 then some (.integer (-n)) else none
  else if n < Nat.pow 2 63 then some (.integer n) else none

/-- Reads a whole number with a mark for its base. -/
def based? (base : Nat) (cs : List Char) : Option (Config.Value × List Char) := do
  let (ds, cs) ← digits? base cs
  return (← integer? false (Digits.toNat base ds), cs)

/-- Reads the exponent behind its letter. -/
def exponent? (cs : List Char) : Option (Int × List Char) := do
  let (negative, cs) := sign cs
  let (ds, cs) ← digits? 10 cs
  let n := Digits.toNat 10 ds
  return (if negative then -n else n, cs)

/-- The number of floating point nearest to a decimal. It may not be too large, unless it is
    negative. -/
def float? (negative : Bool) (d : Decimal) : Option Config.Value :=
  let size : Float :=
    if d.overflows then 1 / 0
    else if d.mantissa = 0 || (Nat.repr d.mantissa).length + d.exponent < -400 then 0
    else Float.ofScientific d.mantissa (d.exponent < 0) d.exponent.natAbs
  if negative then some (.float (-size))
  else if d.overflows then none
  else some (.float size)

/-- Reads a number behind its sign. -/
def unsigned? (negative : Bool) (cs : List Char) : Option (Config.Value × List Char) := do
  let (ds, cs) ← whole? cs
  let fraction ← match cs with
    | '.' :: cs => some <$> digits? 10 cs
    | _ => some none
  let cs := (fraction.map Prod.snd).getD cs
  let exponent ← match cs with
    | 'e' :: cs | 'E' :: cs => some <$> exponent? cs
    | _ => some none
  if fraction.isNone && exponent.isNone then
    return (← integer? negative (Digits.toNat 10 ds), cs)
  let fractionDigits := (fraction.map Prod.fst).getD []
  let value ← float? negative (.ofDigits ds fractionDigits ((exponent.map Prod.fst).getD 0))
  return (value, (exponent.map Prod.snd).getD cs)

/-- Reads a number. -/
def number? (cs : List Char) : Option (Config.Value × List Char) :=
  match cs with
  | '0' :: 'x' :: cs => based? 16 cs
  | '0' :: 'o' :: cs => based? 8 cs
  | '0' :: 'b' :: cs => based? 2 cs
  | cs =>
    let (negative, cs) := sign cs
    match cs with
    | 'i' :: 'n' :: 'f' :: cs => some (.float (if negative then -1 / 0 else 1 / 0), cs)
    | 'n' :: 'a' :: 'n' :: cs => some (.float (0 / 0), cs)
    | cs => unsigned? negative cs

/-- Reads `count` digits as a number in a range. -/
def twoDigits? (least most : Nat) : List Char → Option (Nat × List Char)
  | a :: b :: cs => do
    let n ← Digits.toNat? 10 [a, b]
    if least ≤ n && n ≤ most then some (n, cs) else none
  | _ => none

/-- The number of days in a month. -/
def daysIn (year month : Nat) : Nat :=
  if month = 2 then
    if year % 4 = 0 && (year % 100 != 0 || year % 400 = 0) then 29 else 28
  else if month = 4 || month = 6 || month = 9 || month = 11 then 30
  else 31

/-- A number in at least `width` digits. -/
def pad (width n : Nat) : List Char :=
  let ds := Nat.toDigits 10 n
  List.replicate (width - ds.length) '0' ++ ds

/-- Whether a date begins here. -/
def startsDate (cs : List Char) : Bool :=
  (cs.take 4).length = 4 && (cs.take 4).all Char.isDigit && cs[4]? = some '-'

/-- Whether a time begins here. -/
def startsTime (cs : List Char) : Bool :=
  (cs.take 2).length = 2 && (twoDigits? 0 23 cs).isSome && cs[2]? = some ':'

/-- Reads a date. -/
def date? (cs : List Char) : Option (List Char × List Char) := do
  let year ← Digits.toNat? 10 (cs.take 4)
  let (month, cs) ← twoDigits? 1 12 (cs.drop 5)
  let '-' :: cs := cs | none
  let (day, cs) ← twoDigits? 1 (daysIn year month) cs
  return (pad 4 year ++ '-' :: pad 2 month ++ '-' :: pad 2 day, cs)

/-- The digits behind the point of a second: at most nine, without zeros at the end. -/
def fractionText (ds : List Char) : List Char :=
  match ((ds.take 9).reverse.dropWhile (· = '0')).reverse with
  | [] => []
  | ds => '.' :: ds

/-- Reads a time. -/
def time? (cs : List Char) : Option (List Char × List Char) := do
  let (hour, cs) ← twoDigits? 0 23 cs
  let ':' :: cs := cs | none
  let (minute, cs) ← twoDigits? 0 59 cs
  let ':' :: cs := cs | none
  let (second, cs) ← twoDigits? 0 60 cs
  let (fraction, cs) := match cs with
    | '.' :: rest =>
      match Digits.span 10 rest with
      | ([], _) => ([], cs)
      | (ds, rest) => (fractionText ds, rest)
    | cs => ([], cs)
  return (pad 2 hour ++ ':' :: pad 2 minute ++ ':' :: pad 2 second ++ fraction, cs)

/-- Reads the distance from universal time, if it is stated. -/
def offset? (cs : List Char) : Option (List Char × List Char) :=
  match cs with
  | 'Z' :: cs | 'z' :: cs => some (['Z'], cs)
  | c :: cs =>
    if c = '+' || c = '-' then do
      let (hour, cs) ← twoDigits? 0 23 cs
      let ':' :: cs := cs | none
      let (minute, cs) ← twoDigits? 0 59 cs
      let sign := if hour = 0 && minute = 0 then '+' else c
      return (sign :: pad 2 hour ++ ':' :: pad 2 minute, cs)
    else some ([], c :: cs)
  | [] => some ([], [])

/-- Reads the time behind a date, if there is one. -/
def afterDate? (date : List Char) (cs : List Char) : Option (List Char × List Char) :=
  match cs with
  | c :: rest =>
    if (c = 'T' || c = 't' || c = ' ') && startsTime rest then do
      let (time, cs) ← time? rest
      let (offset, cs) ← offset? cs
      return (date ++ 'T' :: time ++ offset, cs)
    else some (date, cs)
  | [] => some (date, cs)

/-- Reads a date, a time, both, or a number. -/
def numeral? (cs : List Char) : Option (Config.Value × List Char) :=
  let moment (r : Option (List Char × List Char)) :=
    r.map fun (text, cs) => (Config.Value.text (String.ofList text), cs)
  if startsDate cs then
    moment ((date? cs).bind fun (date, cs) => afterDate? date cs)
  else if startsTime cs then moment (time? cs)
  else number? cs

end Toml

end SyntaxHue
