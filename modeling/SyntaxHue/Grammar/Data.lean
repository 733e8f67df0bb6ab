import SyntaxHue.Datum
import SyntaxHue.Grammar.Definition

/-!
# Grammar definitions as data

A grammar definition is written as a record. Its keys are the kinds, in order of priority; the
key `rest` names the language whose rules come after the grammar's own. The patterns of a kind
are one pattern or a list of them, and a pattern is its source or a record that may say more:
a pattern with nothing but a source can be written in either way, and so can a single alias.
-/

namespace SyntaxHue

/-- The fields of a pattern that count. -/
inductive PatternField where
  | pattern
  | greedy
  | lookbehind
  | aliases
  | inside
deriving DecidableEq, Repr

namespace PatternField

/-- The field with a name. -/
def ofName? : String → Option PatternField
  | "pattern" => some pattern
  | "greedy" => some greedy
  | "lookbehind" => some lookbehind
  | "alias" => some aliases
  | "inside" => some inside
  | _ => none

/-- The field with a number. -/
def ofNumber? : Nat → Option PatternField
  | 0 => some pattern
  | 1 => some greedy
  | 2 => some lookbehind
  | 3 => some aliases
  | 4 => some inside
  | _ => none

/-- The field that a key stands for, if it stands for one. -/
def ofKey? : Datum → Option PatternField
  | .text name => ofName? name
  | .natural n => ofNumber? n
  | _ => none

end PatternField

namespace Datum

/-- Whether a field of a pattern can have this key. -/
def isPatternKey : Datum → Bool
  | .text _ | .natural _ => true
  | _ => false

def text? : Datum → Option String
  | .text s => some s
  | _ => none

/-- A truth value. What is absent is false. -/
def flag? : Option Datum → Option Bool
  | none => some false
  | some (.bool b) => some b
  | _ => none

/-- One text or a list of texts. What is absent or null is the empty list. -/
def texts? : Option Datum → Option (List String)
  | none | some .null => some []
  | some (.text s) => some [s]
  | some (.list items) => items.mapM text?
  | _ => none

end Datum

namespace Field

/-- The values of the fields for `field`, in order. -/
def valuesOf (field : PatternField) (fields : List Field) : List Datum :=
  (fields.filter fun f => PatternField.ofKey? f.key = some field).map Field.value

/-- The value for `field`, or `none` if it is absent. It may be there at most once. -/
def valueOf? (field : PatternField) (fields : List Field) : Option (Option Datum) :=
  match valuesOf field fields with
  | [] => some none
  | [value] => some (some value)
  | _ => none

/-- The language that the key `rest` names. The key may be there at most once. -/
def rest? (fields : List Field) : Option (Option String) :=
  match (fields.filter fun f => f.key.text? = some "rest").map Field.value with
  | [] | [.null] => some none
  | [.text language] => some (some language)
  | _ => none

end Field

/-- The pattern that fields describe, without its inner grammar. -/
def PatternHead.ofFields? (fields : List Field) : Option PatternHead := do
  if !fields.all (·.key.isPatternKey) then none
  let some (.text source) ← Field.valueOf? .pattern fields | none
  let greedy ← Datum.flag? (← Field.valueOf? .greedy fields)
  let lookbehind ← Datum.flag? (← Field.valueOf? .lookbehind fields)
  let aliases ← Datum.texts? (← Field.valueOf? .aliases fields)
  let _ ← Field.valueOf? .inside fields
  return { source, greedy, lookbehind, aliases }

mutual

/-- The grammar that a value describes. -/
def GrammarDef.ofDatum? : Datum → Option GrammarDef
  | .record fields => do
    let rest ← Field.rest? fields
    let rules ← RuleDef.ofFields? fields
    return .ofRules rules rest
  | _ => none

/-- The rules that fields describe. -/
def RuleDef.ofFields? : List Field → Option (List RuleDef)
  | [] => some []
  | .mk key value :: fields => do
    let kind ← key.text?
    let rules ← RuleDef.ofFields? fields
    if kind = "rest" then return rules
    let patterns ← RuleDef.patterns? value
    return .mk kind patterns :: rules

/-- The patterns that the value of a rule describes. -/
def RuleDef.patterns? : Datum → Option (List PatternDef)
  | .text source => some [.plain source]
  | .record fields => do
    let head ← PatternHead.ofFields? fields
    let inside ← InsideDef.ofFields? fields
    return [.mk head inside]
  | .list items => PatternDef.ofItems? items
  | _ => none

/-- The patterns that the items of a list describe. -/
def PatternDef.ofItems? : List Datum → Option (List PatternDef)
  | [] => some []
  | item :: items => do
    let first ← PatternDef.ofDatum? item
    let others ← PatternDef.ofItems? items
    return first :: others

/-- The pattern that a value describes. -/
def PatternDef.ofDatum? : Datum → Option PatternDef
  | .text source => some (.plain source)
  | .record fields => do
    let head ← PatternHead.ofFields? fields
    let inside ← InsideDef.ofFields? fields
    return .mk head inside
  | _ => none

/-- The inner grammar that the fields of a pattern describe. -/
def InsideDef.ofFields? : List Field → Option InsideDef
  | [] => some .none
  | .mk key value :: fields =>
    if PatternField.ofKey? key = some .inside then InsideDef.ofDatum? value
    else InsideDef.ofFields? fields

/-- The inner grammar that a value describes. -/
def InsideDef.ofDatum? : Datum → Option InsideDef
  | .null => some .none
  | .text language => some (.language language)
  | .record fields => do
    let rest ← Field.rest? fields
    let rules ← RuleDef.ofFields? fields
    return .grammar (.ofRules rules rest)
  | _ => none

end

end SyntaxHue
