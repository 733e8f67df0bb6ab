import SyntaxHue.Regex.Syntax
import SyntaxHue.Text.Digits
import SyntaxHue.Text.NamedProperty

/-!
# Reading patterns: the parts of words

A reader holds what is left of a pattern, the flags that are on, and what is known of the groups.
This module reads what the larger forms are made of: white space and comments, numbers, names of
groups, references, characters given by number, and properties.
-/

namespace SyntaxHue

/-- Why a pattern is no regular expression. -/
inductive RegexError where
  | unclosedGroup
  | unopenedGroup
  | nothingToRepeat
  | badCount
  | badEscape
  | badClass
  | badRange
  | badCodePoint
  | badGroupName
  | unknownGroup
  /-- Groups are referred to by number although some have names. -/
  | mixedReferences
  | unknownFlag
  | unknownProperty
  | unknownBoundary
  | badCondition
  | tooDeep
  | tooLarge
  /-- The text that a look-behind asks for has no fixed length and cannot be searched. -/
  | unboundedLookBehind
deriving DecidableEq, Repr

/-- The flags that a pattern can set. -/
structure RegexFlags where
  anyCase : Bool := false
  multiLine : Bool := false
  dotAll : Bool := false
  swapGreed : Bool := false
  spaced : Bool := false

/-- What is known at some point of a pattern. -/
structure PatternReader where
  /-- What is left to read. -/
  rest : List Char
  /-- The length of the whole pattern in bytes. -/
  size : Nat
  flags : RegexFlags := {}
  /-- The number of groups that have been opened. -/
  groups : Nat := 0
  names : List (String × Nat) := []
  /-- Whether a group was referred to by number. -/
  numbered : Bool := false
  /-- The groups that were referred to. -/
  refs : List Nat := []
  /-- The extents of the groups that have been closed. -/
  extents : List (Nat × Extent) := []

/-- A step of reading. -/
abbrev ReadM := StateT PatternReader (Except RegexError)

namespace PatternReader

/-- Skips a comment, up to its closing parenthesis. -/
def skipComment : List Char → Except RegexError (List Char)
  | [] => .error .unclosedGroup
  | ')' :: cs => .ok cs
  | ['\\'] => .error .unclosedGroup
  | '\\' :: _ :: cs => skipComment cs
  | _ :: cs => skipComment cs

/-- Whether `c` is white space where white space does not count. -/
def isSpace (c : Char) : Bool :=
  c = ' ' || c = '\r' || c = '\n' || c = '\t'

/-- Skips comments and, if `spaced`, white space and line comments. -/
def skipSpace (spaced : Bool) : Nat → List Char → Except RegexError (List Char)
  | 0, cs => .ok cs
  | fuel + 1, cs =>
    match cs with
    | '(' :: '?' :: '#' :: more => do skipSpace spaced fuel (← skipComment more)
    | '#' :: more =>
      if spaced then skipSpace spaced fuel ((more.dropWhile (· != '\n')).drop 1) else .ok cs
    | c :: more => if spaced && isSpace c then skipSpace spaced fuel more else .ok cs
    | [] => .ok []

/-- Skips what does not count and returns what is left. -/
def skip : ReadM (List Char) := do
  let s ← get
  let rest ← skipSpace s.flags.spaced (s.rest.length + 1) s.rest
  set { s with rest }
  return rest

/-- Sets what is left to read. -/
def goto (rest : List Char) : ReadM Unit :=
  modify fun s => { s with rest }

/-- Reads a decimal number. -/
def decimal? (cs : List Char) : Option (Nat × List Char) :=
  let (digits, rest) := Digits.span 10 cs
  (Digits.toNat? 10 digits).bind fun n => if n < Nat.pow 2 64 then some (n, rest) else none

/-- The number that `cs` is. -/
def number? (cs : List Char) : Option Nat :=
  (decimal? cs).bind fun (n, rest) => if rest.isEmpty then some n else none

/-- The upper bound that stands for none. -/
def boundless : Nat := Nat.pow 2 64 - 1

/-- The bounds of a counted repetition, from behind the opening brace. -/
def counts? (spaced : Bool) (cs : List Char) : Option (Nat × Option Nat × List Char) := do
  let skipped (cs : List Char) : Option (List Char) :=
    (skipSpace spaced (cs.length + 1) cs).toOption
  let cs ← skipped cs
  let (lo, cs) ← if cs.head? = some ',' then some (0, cs) else decimal? cs
  match ← skipped cs with
  | '}' :: after => some (lo, some lo, after)
  | ',' :: more =>
    let more ← skipped more
    let (hi, more) := match decimal? more with
      | some (hi, more) => (if hi = boundless then none else some hi, more)
      | none => (none, more)
    match ← skipped more with
    | '}' :: after => some (lo, hi, after)
    | _ => none
  | _ => none

/-- Reads a name between `opening` and `closing`. -/
def name? (opening closing : List Char) (cs : List Char) : Option (List Char × List Char) :=
  if opening.isPrefixOf cs then
    let inner := cs.drop opening.length
    let name := inner.takeWhile isNameChar
    let after := inner.dropWhile isNameChar
    if !name.isEmpty && closing.isPrefixOf after then some (name, after.drop closing.length)
    else none
  else none

/-- The group that a name or a number in its place stands for. After a sign the number counts
    from the group that was opened last. -/
def group? (s : PatternReader) (sign : Option Char) (name : List Char) : Option Nat :=
  match sign with
  | none => s.names.lookup (String.ofList name) <|> number? name
  | some '+' => (number? name).map (s.groups + ·)
  | some _ => (number? name).bind fun n =>
      if 1 ≤ n && n ≤ s.groups then some (s.groups + 1 - n) else none

/-- Notes a reference to group `n`. -/
def refer (n : Nat) : ReadM Unit :=
  modify fun s => { s with refs := n :: s.refs }

/-- Reads a reference by number. -/
def numberedRef : ReadM Nat := do
  let s ← get
  match decimal? s.rest with
  | some (n, rest) =>
    if s.size / 2 ≤ n then throw .unknownGroup
    goto rest
    refer n
    return n
  | none => throw .unknownGroup

/-- Reads a reference by name, or by a number in its place; the number may have a sign if
    `signed`. -/
def namedRef (opening closing : List Char) (signed : Bool) : ReadM Nat := do
  let s ← get
  let after := s.rest.drop opening.length
  let sign := if signed then after.head?.filter fun c => c = '-' || c = '+' else none
  let opening := opening ++ sign.toList
  match name? opening closing s.rest with
  | some (name, rest) =>
    match s.group? sign name with
    | some n =>
      goto rest
      refer n
      return n
    | none => throw .unknownGroup
  | none => throw .badGroupName

/-- What is known here of the text of group `n`. -/
def extentOf (n : Nat) : ReadM Extent := do
  return ((← get).extents.lookup n).getD .unknown

/-- Reads at most `n` hexadecimal digits. -/
def hexDigits : Nat → ReadM (List Char)
  | 0 => return []
  | n + 1 => do
    match ← skip with
    | c :: rest =>
      if Digits.isDigit 16 c then
        goto rest
        return c :: (← hexDigits n)
      else return []
    | [] => return []

/-- Reads a character number of `width` digits, or of one to eight digits in braces. -/
def hexChar (width : Nat) : ReadM Char := do
  let digits ← match ← skip with
    | '{' :: rest =>
      goto rest
      let digits ← hexDigits 8
      match ← skip with
      | '}' :: rest =>
        goto rest
        pure digits
      | _ => throw .badEscape
    | _ =>
      let digits ← hexDigits width
      if digits.length < width then throw .badEscape
      pure digits
  match Digits.toNat? 16 digits with
  | some n => if n.isValidChar then return Char.ofNat n else throw .badCodePoint
  | none => throw .badEscape

/-- Cuts out the name of a property, from behind the `p` of its escape on. -/
def propertyName (cs : List Char) : Except RegexError (List Char × List Char) :=
  match cs with
  | [] => .error .badEscape
  | '{' :: more =>
    match more.dropWhile (· != '}') with
    | [] => .error .badEscape
    | _ :: rest => .ok (more.takeWhile (· != '}'), rest)
  | c :: rest => .ok ([c], rest)

/-- The name of a property in lower case, without what does not count: spaces, hyphens and
    underscores, what is not ASCII, and `is` at the start. Only `isc` is a name of its own. -/
def plainName (cs : List Char) : String :=
  let (marked, body) := match cs with
    | i :: s :: rest => if i.toLower = 'i' && s.toLower = 's' then (true, rest) else (false, cs)
    | _ => (false, cs)
  let counts (c : Char) : Bool := c.toNat < 128 && !(c = ' ' || c = '_' || c = '-')
  let plain := (body.filter counts).map Char.toLower
  if marked && plain = ['c'] then "isc" else String.ofList plain

/-- Cuts a text at the first place where `mark` stands. -/
def cutAt? (mark : List Char) : List Char → Option (List Char × List Char)
  | [] => none
  | c :: cs =>
    if mark.isPrefixOf (c :: cs) then some ([], (c :: cs).drop mark.length)
    else (cutAt? mark cs).map fun (before, after) => (c :: before, after)

/-- The property whose value is stated, by the names of the property and of the value. -/
def propertyWithValue? (key value : String) : Option CharProperty :=
  match key with
  | "generalcategory" | "gc" => CharProperty.category? value
  | "script" | "sc" => CharProperty.script? value
  | "scriptextensions" | "scx" => CharProperty.scriptExtension? value
  | _ => none

/-- The set of the property `name`, or its complement if `negated`. -/
def property (negated fold : Bool) (name : List Char) : Except RegexError CharClass :=
  let inverse := name.head? = some '^'
  let body := if inverse then name.drop 1 else name
  let (differs, found?) :=
    match cutAt? ['!', '='] body with
    | some (key, value) => (true, propertyWithValue? (plainName key) (plainName value))
    | none =>
      match cutAt? [':'] body <|> cutAt? ['='] body with
      | some (key, value) => (false, propertyWithValue? (plainName key) (plainName value))
      | none => (false, CharProperty.ofName? (plainName body))
  match found? with
  | some p => .ok (.complIf ((negated != inverse) != differs) (.foldIf fold (.property p)))
  | none => .error .unknownProperty

end PatternReader

end SyntaxHue
