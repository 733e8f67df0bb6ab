import SyntaxHue.Datum
import SyntaxHue.Text.Decimal
import SyntaxHue.Yaml.Node

/-!
# The values of nodes

A plain scalar that looks like a null, a truth value or a number is one; a tag may say what a
scalar is. Aliases are replaced by what they stand for. Collections are at most 128 deep, and
the number of replacements is limited by the size of the document.
-/

namespace SyntaxHue

namespace Yaml

/-- Whether a text is null. -/
def isNull (s : String) : Bool :=
  s = "null" || s = "Null" || s = "NULL" || s = "~"

/-- The truth value that a text is. -/
def bool? : String → Option Bool
  | "true" | "True" | "TRUE" => some true
  | "false" | "False" | "FALSE" => some false
  | _ => none

/-- Whether `cs` is a zero with further digits behind it, which is no number. -/
def hasLeadingZero (cs : List Char) : Bool :=
  match cs with
  | '0' :: d :: ds => (d :: ds).all Char.isDigit
  | _ => false

/-- The number that `cs` is, without a sign, in base 10 or behind the mark of another base. -/
def magnitude? (cs : List Char) : Option Nat :=
  match cs with
  | '0' :: 'x' :: ds => Digits.toNat? 16 ds
  | '0' :: 'o' :: ds => Digits.toNat? 8 ds
  | '0' :: 'b' :: ds => Digits.toNat? 2 ds
  | cs => if hasLeadingZero cs then none else Digits.toNat? 10 cs

/-- A whole number of a text, unless it takes more than 128 bits. -/
inductive Whole where
  | natural (n : Nat)
  | negative
  /-- A number that takes more than 64 bits. -/
  | tooLong

/-- The whole number that a text is. -/
def whole? (cs : List Char) : Option Whole :=
  let positive (cs : List Char) := do
    let n ← magnitude? cs
    if n < Nat.pow 2 64 then some (Whole.natural n)
    else if n < Nat.pow 2 128 then some .tooLong
    else none
  match cs with
  | '+' :: cs => positive cs
  | '-' :: cs => do
    let n ← magnitude? cs
    if n ≤ Nat.pow 2 63 then some .negative
    else if n ≤ Nat.pow 2 127 then some .tooLong
    else none
  | cs => positive cs

/-- Reads an exponent that ends the text. -/
def exponent? : List Char → Option Int
  | [] => some 0
  | e :: cs =>
    if e != 'e' && e != 'E' then none
    else
      match cs with
      | '+' :: ds => (Digits.toNat? 10 ds).map Int.ofNat
      | '-' :: ds => (Digits.toNat? 10 ds).map fun n => -Int.ofNat n
      | ds => (Digits.toNat? 10 ds).map Int.ofNat

/-- The number without a sign that a text is, with a point or an exponent or both. -/
def decimal? (cs : List Char) : Option Decimal := do
  let (whole, rest) := Digits.span 10 cs
  let (fraction, rest) := match rest with
    | '.' :: rest => Digits.span 10 rest
    | rest => ([], rest)
  if whole.isEmpty && fraction.isEmpty then none
  return .ofDigits whole fraction (← exponent? rest)

/-- Whether a text is a number of floating point. -/
def isFloat (cs : List Char) : Bool :=
  let finite (cs : List Char) := (decimal? cs).any (!·.overflows)
  let infinite (cs : List Char) := [".inf", ".Inf", ".INF"].contains (String.ofList cs)
  match cs with
  | '+' :: cs => infinite cs || finite cs
  | '-' :: cs => infinite cs || finite cs
  | cs => infinite cs || finite cs || [".nan", ".NaN", ".NAN"].contains (String.ofList cs)

/-- The value of a whole number. -/
def Whole.toDatum? (text : String) : Whole → Option Datum
  | natural n => some (.natural n)
  | negative => some (.number text)
  | tooLong => none

/-- The value of a plain scalar without a tag. -/
def plainDatum? (text : String) : Option Datum :=
  let cs := text.toList
  if text.isEmpty || isNull text then some .null
  else
    match bool? text with
    | some b => some (.bool b)
    | none =>
      match whole? cs with
      | some n => n.toDatum? text
      | none =>
        let unsigned := match cs with
          | '+' :: cs => cs
          | '-' :: cs => cs
          | cs => cs
        if !hasLeadingZero unsigned && isFloat cs then some (.number text)
        else some (.text text)

/-- The value of a scalar. A tag that begins with an exclamation mark gives it none. -/
def scalarDatum? (tag : Option String) (plain : Bool) (text : String) : Option Datum :=
  match tag with
  | none => if plain then plainDatum? text else some (.text text)
  | some t =>
    if t.toList.head? = some '!' then none
    else if t = Read.coreTag ++ "null" then if isNull text then some .null else none
    else if t = Read.coreTag ++ "bool" then (bool? text).map .bool
    else if t = Read.coreTag ++ "int" then (whole? text.toList).bind (·.toDatum? text)
    else if t = Read.coreTag ++ "float" then
      if isFloat text.toList then some (.number text) else none
    else some (.text text)

/-- Whether a collection with this tag has a value. -/
def hasValue (tag : Option String) : Bool :=
  !tag.any (·.toList.head? = some '!')

mutual

/-- The nodes with anchors, in the order of their starts. -/
def Node.targets : Node → List (Nat × Node)
  | .reference _ => []
  | .anchored anchor node => (anchor, node) :: node.targets
  | .scalar _ _ _ => []
  | .sequence _ items => targetsOfItems items
  | .mapping _ entries => targetsOfEntries entries

/-- The nodes with anchors in the items of a sequence. -/
def targetsOfItems : List Node → List (Nat × Node)
  | [] => []
  | item :: items => item.targets ++ targetsOfItems items

/-- The nodes with anchors in the entries of a mapping. -/
def targetsOfEntries : List Entry → List (Nat × Node)
  | [] => []
  | entry :: entries => entry.targets ++ targetsOfEntries entries

/-- The nodes with anchors in an entry. -/
def Entry.targets : Entry → List (Nat × Node)
  | .mk key value => key.targets ++ value.targets

end

mutual

/-- The size of a node: one for each scalar and alias, and two for each collection. -/
def Node.size : Node → Nat
  | .reference _ => 1
  | .anchored _ node => node.size
  | .scalar _ _ _ => 1
  | .sequence _ items => sizeOfItems items + 2
  | .mapping _ entries => sizeOfEntries entries + 2

/-- The size of the items of a sequence. -/
def sizeOfItems : List Node → Nat
  | [] => 0
  | item :: items => item.size + sizeOfItems items

/-- The size of the entries of a mapping. -/
def sizeOfEntries : List Entry → Nat
  | [] => 0
  | entry :: entries => entry.size + sizeOfEntries entries

/-- The size of an entry. -/
def Entry.size : Entry → Nat
  | .mk key value => key.size + value.size

end

/-- What aliases stand for. Of two nodes with one number the later one counts. -/
structure Targets where
  nodes : List (Nat × Node)

namespace Targets

/-- The targets in a document. -/
def ofNode (node : Node) : Targets :=
  ⟨node.targets.reverse⟩

end Targets

/-- A step that may replace aliases. The state is the number of replacements that are left. -/
abbrev Expand := StateT Nat Option

namespace Expand

/-- The node without an anchor that a node is or stands for. -/
def resolve (ts : Targets) : Node → Expand Node
  | .reference number => do
    let left ← get
    if left = 0 then failure
    set (left - 1)
    let some node := ts.nodes.lookup number | failure
    return node
  | .anchored _ node => return node
  | node => return node

/-- The value of a node with at most `depth` collections inside each other. -/
def datum (ts : Targets) : Nat → Node → Expand Datum
  | depth, node => do
    match ← resolve ts node, depth with
    | .scalar tag plain text, _ =>
      let some value := scalarDatum? tag plain text | failure
      return value
    | .sequence tag items, depth + 1 =>
      if !hasValue tag then failure
      return .list (← items.mapM (datum ts depth))
    | .mapping tag entries, depth + 1 =>
      if !hasValue tag then failure
      return .record (← entries.mapM fun
        | .mk key value => return .mk (← datum ts depth key) (← datum ts depth value))
    | _, _ => failure

end Expand

end Yaml

end SyntaxHue
