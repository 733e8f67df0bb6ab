import SyntaxHue.Table
import SyntaxHue.Yaml.Scan

/-!
# Nodes

A document is a node: a scalar, a sequence, a mapping, or another name for a node that stands
elsewhere. The nodes of a text are read from its tokens; a text holds at most one document.
-/

namespace SyntaxHue

namespace Yaml

mutual

/-- A node of a document. -/
inductive Node where
  /-- The node with an anchor of this number. -/
  | reference (anchor : Nat)
  | anchored (anchor : Nat) (node : Node)
  /-- `plain` says whether the scalar stands without quotes and is no block. -/
  | scalar (tag : Option String) (plain : Bool) (text : String)
  | sequence (tag : Option String) (items : List Node)
  | mapping (tag : Option String) (entries : List Entry)

/-- An entry of a mapping. -/
inductive Entry where
  | mk (key value : Node)

end

instance : Inhabited Node := ⟨.reference 0⟩

namespace Node

/-- The scalar that stands where nothing is written. -/
def empty (tag : Option String) : Node := .scalar tag true ""

end Node

/-- What is left of the tokens, and the names that are known. -/
structure Reader where
  tokens : List Token
  /-- What tags with a handle begin with. -/
  handles : Table String := .empty
  /-- The numbers of the anchors. -/
  anchors : Table Nat := .empty

/-- A step of reading. -/
abbrev Read := StateT Reader Option

namespace Read

/-- The next token. -/
def peek : Read (Option Token) := do
  return (← get).tokens.head?

/-- Passes a token. -/
def skip : Read Unit :=
  modify fun r => { r with tokens := r.tokens.tail }

/-- Whether one of `ts` comes next. -/
def sees (ts : List Token) : Read Bool := do
  return (← peek).any (ts.contains ·)

/-- Passes `t` if it comes next, and returns whether it did. -/
def passes (t : Token) : Read Bool := do
  if ← sees [t] then
    skip
    return true
  else return false

/-- The whole of a tag. -/
def tag (handle suffix : String) : Read String := do
  if handle.isEmpty then return suffix
  else
    let some meaning := (← get).handles.get? handle | failure
    return meaning ++ suffix

/-- Reads an anchor, if one comes next. -/
def anchor : Read (Option String) := do
  match ← peek with
  | some (.anchor name) =>
    skip
    return some name
  | _ => return none

/-- Reads a tag, if one comes next. -/
def tag? : Read (Option String) := do
  match ← peek with
  | some (.tag handle suffix) =>
    skip
    return some (← tag handle suffix)
  | _ => return none

/-- Reads an anchor and a tag, in either order. -/
def properties : Read (Option String × Option String) := do
  match ← anchor with
  | some name => return (some name, ← tag?)
  | none =>
    match ← tag? with
    | some t => return (← anchor, some t)
    | none => return (none, none)

/-- Passes the comma before an item, unless it is the first one. -/
def separator (first : Bool) : Read Unit := do
  if first then return
  if ← passes .flowEntry then return else failure

/-- Gives a number to an anchor. It is the number of the names so far, whether or not the name
    was used before. -/
def register (name : String) : Read Nat := do
  let r ← get
  let number := r.anchors.size
  set { r with anchors := r.anchors.put name number }
  return number

mutual

/-- Reads a node. Blocks may begin here if `block`; a sequence that is not indented may begin
    here if `bare`. Each token is passed by at most two calls. -/
def node : Nat → Bool → Bool → Read Node
  | 0, _, _ => failure
  | fuel + 1, block, bare => do
    if let some (.reference name) ← peek then
      skip
      let some number := (← get).anchors.get? name | failure
      return .reference number
    let (name?, tag) ← properties
    match name? with
    | none => content fuel block bare false tag
    | some name =>
      let number ← register name
      return .anchored number (← content fuel block bare true tag)

/-- Reads what follows the anchor and the tag of a node. -/
def content : Nat → Bool → Bool → Bool → Option String → Read Node
  | 0, _, _, _, _ => failure
  | fuel + 1, block, bare, hasAnchor, tag => do
    match (← peek), block, bare with
    | some .blockEntry, _, true => return .sequence tag (← bareItems fuel)
    | some (.scalar plain text), _, _ =>
      skip
      return .scalar (if tag = some "!" then none else tag) plain text
    | some .flowSequence, _, _ =>
      skip
      return .sequence tag (← flowItems fuel true)
    | some .flowMapping, _, _ =>
      skip
      return .mapping tag (← flowEntries fuel true)
    | some .blockSequence, true, _ =>
      skip
      return .sequence tag (← blockItems fuel)
    | some .blockMapping, true, _ =>
      skip
      return .mapping tag (← blockEntries fuel)
    | _, _, _ => if hasAnchor || tag.isSome then return .empty tag else failure

/-- Reads a node, unless one of `ends` comes next. -/
def nodeBefore : Nat → Bool → Bool → List Token → Read Node
  | 0, _, _, _ => failure
  | fuel + 1, block, bare, ends => do
    if ← sees ends then return .empty none else node fuel block bare

/-- Reads the items of a block sequence. -/
def blockItems : Nat → Read (List Node)
  | 0 => failure
  | fuel + 1 => do
    if ← passes .blockEntry then
      let item ← nodeBefore fuel true false [.blockEntry, .blockEnd]
      return item :: (← blockItems fuel)
    else if ← passes .blockEnd then return []
    else failure

/-- Reads the items of a sequence that is not indented. -/
def bareItems : Nat → Read (List Node)
  | 0 => failure
  | fuel + 1 => do
    if ← passes .blockEntry then
      let item ← nodeBefore fuel true false [.blockEntry, .key, .value, .blockEnd]
      return item :: (← bareItems fuel)
    else return []

/-- Reads the entries of a block mapping. -/
def blockEntries : Nat → Read (List Entry)
  | 0 => failure
  | fuel + 1 => do
    if ← passes .key then
      let key ← nodeBefore fuel true true [.key, .value, .blockEnd]
      let value ←
        if ← passes .value then nodeBefore fuel true true [.key, .value, .blockEnd]
        else pure (.empty none)
      return .mk key value :: (← blockEntries fuel)
    else if ← passes .blockEnd then return []
    else failure

/-- Reads the items of a sequence in brackets. An entry of a mapping may be an item. -/
def flowItems : Nat → Bool → Read (List Node)
  | 0, _ => failure
  | fuel + 1, first => do
    if ← passes .flowSequenceEnd then return []
    else
      separator first
      if ← passes .flowSequenceEnd then return []
      else if ← passes .key then
        let entry ← flowPair fuel
        return .mapping none [entry] :: (← flowItems fuel false)
      else
        let item ← node fuel false false
        return item :: (← flowItems fuel false)

/-- Reads an entry of a mapping that is an item. A token that stands in place of the key is
    lost. -/
def flowPair : Nat → Read Entry
  | 0 => failure
  | fuel + 1 => do
    let lost ← sees [.value, .flowEntry, .flowSequenceEnd]
    if lost then skip
    let key ← if lost then pure (.empty none) else node fuel false false
    let value ←
      if ← passes .value then nodeBefore fuel false false [.flowEntry, .flowSequenceEnd]
      else pure (.empty none)
    return .mk key value

/-- Reads the entries of a mapping in brackets. -/
def flowEntries : Nat → Bool → Read (List Entry)
  | 0, _ => failure
  | fuel + 1, first => do
    if ← passes .flowMappingEnd then return []
    else
      separator first
      if ← passes .flowMappingEnd then return []
      else if ← passes .key then
        let key ← nodeBefore fuel false false [.value, .flowEntry, .flowMappingEnd]
        let value ←
          if ← passes .value then nodeBefore fuel false false [.flowEntry, .flowMappingEnd]
          else pure (.empty none)
        return .mk key value :: (← flowEntries fuel false)
      else
        let key ← node fuel false false
        return .mk key (.empty none) :: (← flowEntries fuel false)

end

/-- Reads directives. There may be one version, which has to be 1.1 or 1.2, and one meaning for
    each handle. -/
def directives : List Token → Bool → Table String → Option (Table String × List Token)
  | .version major minor :: ts, versioned, handles =>
    if versioned || major != 1 || (minor != 1 && minor != 2) then none
    else directives ts true handles
  | .tagHandle name meaning :: ts, versioned, handles =>
    if handles.contains name then none
    else directives ts versioned (handles.put name meaning)
  | ts, _, handles => some (handles, ts)

/-- What the tags of the format itself begin with. -/
def coreTag : String := "tag:yaml.org,2002:"

/-- Adds the handles that always have a meaning. -/
def withDefaults (handles : Table String) : Table String :=
  [("!", "!"), ("!!", coreTag)].foldl (fun handles entry =>
    if handles.contains entry.1 then handles else handles.put entry.1 entry.2) handles

/-- Whether a token announces a document. -/
def announces : Token → Bool
  | .version _ _ | .tagHandle _ _ | .documentStart => true
  | _ => false

/-- Reads a document. One that is announced may be empty. -/
def document (fuel : Nat) : Read Node := do
  let some first ← peek | failure
  let (handles, ts) ← directives (← get).tokens false .empty
  modify fun r => { r with tokens := ts, handles := withDefaults handles }
  if announces first then
    if !(← passes .documentStart) then failure
    match ← peek with
    | none => return .empty none
    | some t =>
      if announces t || t = .documentEnd then return .empty none else node fuel true false
  else node fuel true false

end Read

/-- Reads the document of a text, which has to be the only one. The result is `none` if there is
    no document. -/
def readNode (cs : List Char) : Option (Option Node) := do
  match ← Token.scan? cs with
  | [] => return none
  | ts =>
    let (node, rest) ← (Read.document (4 * ts.length + 8)).run { tokens := ts }
    if rest.tokens.all (· = .documentEnd) then return some node else none

end Yaml

end SyntaxHue
