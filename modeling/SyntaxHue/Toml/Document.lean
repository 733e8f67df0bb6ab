import SyntaxHue.Toml.Number
import SyntaxHue.Toml.Table

/-!
# TOML documents

A document is a sequence of lines, each of which gives a value to a key or opens the table that
the lines after it belong to. Lists and tables in braces are at most 79 deep.
-/

namespace SyntaxHue

namespace Toml

/-- The names before the last one of a key, and the last one. -/
def splitKey : List String → List String × String
  | [] => ([], "")
  | [name] => ([], name)
  | name :: names =>
    let (path, last) := splitKey names
    (name :: path, last)

mutual

/-- Reads a value. `depth` lists and tables may be inside each other. Each character is passed
    by at most two calls. -/
def value? : Nat → Nat → List Char → Option (Config.Value × List Char)
  | 0, _, _ => none
  | fuel + 1, depth, cs =>
    match cs with
    | '"' :: _ | '\'' :: _ =>
      (string? cs).map fun (text, cs) => (.text (String.ofList text), cs)
    | 't' :: 'r' :: 'u' :: 'e' :: cs => some (.bool true, cs)
    | 'f' :: 'a' :: 'l' :: 's' :: 'e' :: cs => some (.bool false, cs)
    | '[' :: cs =>
      match depth with
      | 0 => none
      | depth + 1 => do
        let (items, cs) ← items? fuel depth cs
        return (.list items, cs)
    | '{' :: cs =>
      match depth with
      | 0 => none
      | depth + 1 =>
        match skipSpace cs with
        | '}' :: cs => some (.table [], cs)
        | cs => do
          let (slots, cs) ← fields? fuel depth cs []
          return (.table (slotEntries slots), cs)
    | cs => numeral? cs

/-- Reads the items of a list and its closing bracket. -/
def items? : Nat → Nat → List Char → Option (List Config.Value × List Char)
  | 0, _, _ => none
  | fuel + 1, depth, cs => do
    match ← skipLines (cs.length + 1) cs with
    | ']' :: cs => return ([], cs)
    | cs =>
      let (item, cs) ← value? fuel depth cs
      match ← skipLines (cs.length + 1) cs with
      | ']' :: cs => return ([item], cs)
      | ',' :: cs =>
        let (items, cs) ← items? fuel depth cs
        return (item :: items, cs)
      | _ => none

/-- Reads the fields of a table in braces and its closing brace. -/
def fields? : Nat → Nat → List Char → List Slot → Option (List Slot × List Char)
  | 0, _, _, _ => none
  | fuel + 1, depth, cs, slots => do
    let (key, cs) ← key? cs
    let '=' :: cs := cs | none
    let (v, cs) ← value? fuel depth (skipSpace cs)
    let (path, last) := splitKey key
    let slots ← Slot.assign path last v .stated slots
    match skipSpace cs with
    | '}' :: cs => return (slots, cs)
    | ',' :: cs => fields? fuel depth cs slots
    | _ => none

end

/-- How deep lists and tables in braces may be. -/
def depthLimit : Nat := 79

/-- A document under construction. -/
structure Draft where
  slots : List Slot := []
  /-- The header that the lines belong to. -/
  header : List String := []

namespace Draft

/-- Reads a key and its value. -/
def assignment? (d : Draft) (cs : List Char) : Option (Draft × List Char) := do
  let (key, cs) ← key? cs
  let '=' :: cs := cs | none
  let cs := skipSpace cs
  let (v, cs) ← value? (2 * cs.length + 2) depthLimit cs
  let (path, last) := splitKey key
  let slots ← Slot.update false (Slot.assign path last v) d.header .stated d.slots
  return ({ d with slots }, cs)

/-- Reads a header behind its opening bracket. -/
def table? (d : Draft) (cs : List Char) : Option (Draft × List Char) := do
  let (key, cs) ← key? cs
  let ']' :: cs := cs | none
  let (path, last) := splitKey key
  return (⟨← Slot.openTable path last d.slots, key⟩, cs)

/-- Reads a header behind its two opening brackets. -/
def tables? (d : Draft) (cs : List Char) : Option (Draft × List Char) := do
  let (key, cs) ← key? cs
  let ']' :: ']' :: cs := cs | none
  let (path, last) := splitKey key
  return (⟨← Slot.openNext path last d.slots, key⟩, cs)

/-- Reads what stands on a line that is not empty. -/
def line? (d : Draft) (cs : List Char) : Option (Draft × List Char) :=
  match cs with
  | '[' :: '[' :: cs => d.tables? cs
  | '[' :: cs => d.table? cs
  | cs => d.assignment? cs

/-- Reads lines. Each takes at least one character. -/
def lines? : Nat → Draft → List Char → Option Draft
  | 0, _, _ => none
  | fuel + 1, d, cs =>
    match skipSpace cs with
    | [] => some d
    | c :: cs =>
      if c = '#' || c = '\n' || c = '\r' then (finishLine? (c :: cs)).bind (lines? fuel d)
      else do
        let (d, cs) ← d.line? (c :: cs)
        lines? fuel d (← finishLine? cs)

end Draft

/-- Reads a document as the entries of its outermost table. -/
def read (cs : List Char) : Option (List Config.Entry) := do
  let cs := match cs with
    | '\uFEFF' :: cs => cs
    | cs => cs
  let d ← Draft.lines? (cs.length + 1) {} cs
  return slotEntries d.slots

end Toml

end SyntaxHue
