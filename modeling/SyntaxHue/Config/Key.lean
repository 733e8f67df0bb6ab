import SyntaxHue.Config.Value

/-!
# Keys

A key is a path through tables and lists, such as `languages.extra[0].name`. Setting a value
makes what is missing on the way, and replaces what is of the wrong kind. Tables are merged,
other values are replaced. Names are in lower case.
-/

namespace SyntaxHue

namespace Config

/-- A step from a value to a part of it. -/
inductive Step where
  | name (s : String)
  /-- An item, counted from the end if the number is negative. -/
  | index (i : Int)
deriving DecidableEq, Repr

namespace Key

/-- Whether `c` may stand in a name. -/
def isNameChar (c : Char) : Bool :=
  c.isAlphanum || c = ' ' || c = '_' || c = '-'

/-- Reads a name. -/
def name? (cs : List Char) : Option (Step × List Char) :=
  match cs.takeWhile isNameChar with
  | [] => none
  | name => some (.name (String.ofList name), cs.dropWhile isNameChar)

/-- Whether `c` may stand around an index. -/
def isSpace (c : Char) : Bool :=
  c = ' ' || c = '\t'

/-- Whether a number can be an index. -/
def isIndex (i : Int) : Bool :=
  -Nat.pow 2 63 ≤ i && i < Nat.pow 2 63

/-- Reads an index behind its opening bracket. -/
def index? (cs : List Char) : Option (Step × List Char) := do
  let cs := cs.dropWhile isSpace
  let (sign, cs) : Int × List Char := match cs with
    | '-' :: cs => (-1, cs)
    | cs => (1, cs)
  let n ← Digits.toNat? 10 (cs.takeWhile Char.isDigit)
  match (cs.dropWhile Char.isDigit).dropWhile isSpace with
  | ']' :: rest => if isIndex (sign * n) then some (.index (sign * n), rest) else none
  | _ => none

/-- Reads the steps behind the first one. Each takes at least one character. -/
def steps? : Nat → List Char → Option (List Step)
  | _, [] => some []
  | 0, _ => none
  | fuel + 1, c :: cs => do
    let (step, rest) ← if c = '.' then name? cs else if c = '[' then index? cs else none
    return step :: (← steps? fuel rest)

/-- Reads a key. -/
def read? (key : String) : Option (List Step) := do
  let (first, rest) ← name? key.toList
  return first :: (← steps? rest.length rest)

end Key

namespace Value

mutual

/-- The value in the place of `old` after another one was set there. Tables are merged; an empty
    one changes nothing. -/
def merge (old : Value) : Value → Value
  | .table [] =>
    match old with
    | .missing => .table []
    | old => old
  | .table (entry :: entries) =>
    .table (mergeAll (match old with
      | .table present => present
      | _ => []) (entry :: entries))
  | value => value

/-- Merges entries into those that are present. -/
def mergeAll (present : List Entry) : List Entry → List Entry
  | [] => present
  | .mk key value :: entries =>
    let key := lower key
    let value := merge ((Entry.find? key present).getD .missing) value
    mergeAll (Entry.put key value present) entries

end

/-- The items up to the one with a number, with missing ones added. -/
def padded (items : List Value) (i : Nat) : List Value :=
  items ++ List.replicate (i + 1 - items.length) .missing

/-- The place of an index in a list, unless it is before the start. -/
def place? (i : Int) (length : Nat) : Option Nat :=
  if 0 ≤ i then some i.toNat
  else if i.natAbs ≤ length then some (length - i.natAbs)
  else none

/-- The value with another one set where the steps lead. -/
def set? (value : Value) : List Step → Value → Option Value
  | [], old => some (merge old value)
  | .name s :: steps, old => do
    let entries := match old with
      | .table entries => entries
      | _ => []
    let part ← set? value steps ((Entry.find? (lower s) entries).getD .missing)
    return .table (Entry.put (lower s) part entries)
  | .index i :: steps, old => do
    let items := match old with
      | .list items => items
      | _ => []
    let place ← place? i items.length
    let items := padded items place
    let part ← match steps with
      | [] => some value
      | steps => set? value steps ((items[place]?).getD .missing)
    return .list (items.set place part)

/-- The value with another one set under a key of a file. What is no path is a name. -/
def setKey? (value : Value) (key : String) (old : Value) : Option Value :=
  set? value ((Key.read? key).getD [.name key]) old

end Value

end Config

end SyntaxHue
