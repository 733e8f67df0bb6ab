import SyntaxHue.Grammar.Data
import SyntaxHue.Grammar.Store
import SyntaxHue.Json.Value
import SyntaxHue.Yaml.Value

/-!
# Grammar definitions as text

A definition is a text in JSON or YAML. Whatever is wrong with it, no part of it is defined.
-/

namespace SyntaxHue

/-- How a definition is written. -/
inductive DataFormat where
  | json
  | yaml
deriving DecidableEq, Repr

namespace Yaml

/-- The value of the key `rest` in the outermost mapping: a text, even if it looks like a number
    or a truth value, or null if nothing is written or it looks like that. -/
def restDatum (ts : Targets) (node : Node) : Expand Datum := do
  let .scalar tag plain text ← Expand.resolve ts node | failure
  if !plain then return .text text
  else if tag = some (Read.coreTag ++ "null") then
    if isNull text then return .null else failure
  else if tag.isNone && (text.isEmpty || isNull text) then return .null
  else return .text text

/-- An entry of the outermost mapping as a field. Its key is a text, whatever it looks like. -/
def fieldDatum (ts : Targets) (depth : Nat) : Entry → Expand Field
  | .mk key value => do
    let .scalar _ _ name ← Expand.resolve ts key | failure
    let value ← if name = "rest" then restDatum ts value else Expand.datum ts depth value
    return .mk (.text name) value

/-- How deep collections may be in a document. -/
def depthLimit : Nat := 128

/-- The replacements that a document of a size may need. -/
def expansionLimit (size : Nat) : Nat := 100 * size

/-- The record of a text. No document at all and a document without text are empty records. -/
def readRecord (cs : List Char) : Option Datum := do
  let some node ← readNode cs | return .record []
  let ts := Targets.ofNode node
  let whole : Expand Datum := do
    match ← Expand.resolve ts node with
    | .scalar _ true "" => return .record []
    | .mapping _ entries => return .record (← entries.mapM (fieldDatum ts (depthLimit - 1)))
    | _ => failure
  let (value, _) ← whole.run (expansionLimit node.size)
  return value

end Yaml

namespace GrammarDef

/-- The grammar that a value describes, if there is one. -/
def ofDatum (d? : Option Datum) : Except GrammarError GrammarDef :=
  match d?.bind ofDatum? with
  | some d => .ok d
  | none => .error .malformed

/-- Reads a definition in JSON. -/
def ofJson (source : String) : Except GrammarError GrammarDef :=
  ofDatum (Json.read source.toList)

/-- Reads a definition in YAML. -/
def ofYaml (source : String) : Except GrammarError GrammarDef :=
  ofDatum (Yaml.readRecord source.toList)

/-- Reads a definition. -/
def read (format : DataFormat) (source : String) : Except GrammarError GrammarDef :=
  match format with
  | .json => ofJson source
  | .yaml => ofYaml source

end GrammarDef

namespace Store

/-- Defines a language as a text says. -/
def load (s : Store) (format : DataFormat) (language source : String) :
    Except GrammarError (GrammarId × Store) := do
  s.define language (← GrammarDef.read format source)

end Store

end SyntaxHue
