import SyntaxHue.Text.LowerCase
import SyntaxHue.Text.Digits
import SyntaxHue.Text.Shortest

/-!
# Values of settings

The values that configuration files and overrides hold. A value of one kind is taken for one of
another where that makes sense: a number for a text, a word such as `yes` for a truth value.
-/

namespace SyntaxHue

namespace Config

mutual

/-- A value. -/
inductive Value where
  /-- The place of a value that was never given. -/
  | missing
  | bool (b : Bool)
  | integer (n : Int)
  | float (x : Float)
  | text (s : String)
  | list (items : List Value)
  | table (entries : List Entry)

/-- A value under a key. -/
inductive Entry where
  | mk (key : String) (value : Value)

end

instance : Inhabited Value := ⟨.missing⟩

namespace Entry

def key : Entry → String
  | mk key _ => key

def value : Entry → Value
  | mk _ value => value

/-- The value under a key. -/
def find? (key : String) (entries : List Entry) : Option Value :=
  (entries.find? fun e => e.key = key).map Entry.value

/-- Sets the value under a key, in its place or behind all others. -/
def put (key : String) (value : Value) : List Entry → List Entry
  | [] => [mk key value]
  | e :: entries => if e.key = key then mk key value :: entries else e :: put key value entries

end Entry

/-- The lower-case form of a text. -/
def lower (s : String) : String :=
  String.ofList (lowerText s.toList)

/-- The words for true besides numbers. -/
def isYes (s : String) : Bool :=
  s = "true" || s = "on" || s = "yes"

/-- The words for false besides numbers. -/
def isNo (s : String) : Bool :=
  s = "false" || s = "off" || s = "no"

namespace Value

/-- The text that a value is taken for. -/
def text? : Value → Option String
  | .text s => some s
  | .bool b => some (if b then "true" else "false")
  | .integer n => some (String.ofList
      ((if n < 0 then ['-'] else []) ++ Nat.toDigits 10 n.natAbs))
  | .float x => some (FloatText.text x)
  | _ => none

/-- The truth value that a value is taken for. -/
def bool? : Value → Option Bool
  | .bool b => some b
  | .integer n => some (n != 0)
  | .float x => some (x.isNaN || x.isInf || (FloatText.sizeOf x).mantissa != 0)
  | .text s =>
    let s := lower s
    if isYes s || s = "1" then some true
    else if isNo s || s = "0" then some false
    else none
  | _ => none

/-- The greatest size. -/
def maxSize : Nat := Nat.pow 2 64 - 1

/-- The size that a text is. It may have a plus sign. -/
def sizeOfText? (s : String) : Option Nat := do
  let digits := match s.toList with
    | '+' :: cs => cs
    | cs => cs
  let n ← Digits.toNat? 10 digits
  if n ≤ maxSize then some n else none

/-- The size that a value is taken for. -/
def size? : Value → Option Nat
  | .integer n => if 0 ≤ n then some n.toNat else none
  | .bool b => some (if b then 1 else 0)
  | .float x => some (FloatText.toNat maxSize x)
  | .text s =>
    let word := lower s
    if isYes word then some 1 else if isNo word then some 0 else sizeOfText? s
  | _ => none

end Value

end Config

end SyntaxHue
