import SyntaxHue.Regex.Reader.Basic

/-!
# Reading character classes

A class is read in two steps. First its text is cut out of the pattern, with the brackets balanced
and the escapes put in plain terms. Then the ranges and operators of that text are read. The two
steps do not count brackets alike: in the text an opening bracket may be the end of a range, so
that the class ends early. What is left of the text then follows the class in the pattern.
-/

namespace SyntaxHue

namespace PatternReader

/-- A character as it is written in the text of a class. -/
def quoted (c : Char) : List Char :=
  if "\\.+*?()|[]\x7b\x7d^$#&-~".toList.contains c then ['\\', c] else [c]

/-- The control character that a letter stands for behind a backslash. -/
def controlChar? : Char → Option Char
  | 'a' => some '\x07'
  | 'e' => some '\x1b'
  | 'f' => some '\x0c'
  | 'n' => some '\n'
  | 'r' => some '\r'
  | 't' => some '\t'
  | 'v' => some '\x0b'
  | _ => none

/-- The number of digits behind the letter of a character number. -/
def hexWidth? : Char → Option Nat
  | 'x' => some 2
  | 'u' => some 4
  | 'U' => some 8
  | _ => none

/-- The set of characters that a letter stands for behind a backslash. -/
def letterSet? : Char → Option CharClass
  | 'd' => some .digit
  | 'D' => some (.compl .digit)
  | 's' => some .blank
  | 'S' => some (.compl .blank)
  | 'w' => some .word
  | 'W' => some (.compl .word)
  | _ => none

/-- Reads an escape in a class, from the character after the backslash, and returns it in plain
    terms. -/
def classEscape : ReadM (List Char) := do
  match (← get).rest with
  | [] => throw .badEscape
  | c :: rest =>
    goto rest
    if let some width := hexWidth? c then return quoted (← hexChar width)
    else if let some control := controlChar? c then return [control]
    else if (letterSet? c).isSome then return ['\\', c]
    else match c with
      | 'b' => return ['\x08']
      | 'h' => return "[0-9A-Fa-f]".toList
      | 'H' => return "[^0-9A-Fa-f]".toList
      | 'p' | 'P' =>
        let (name, rest) ← propertyName rest
        goto rest
        return '\\' :: c :: '{' :: name ++ ['}']
      | _ =>
        if c.isDigit then throw .badClass
        if c.isAlpha && !"AzkKBG".toList.contains c then throw .badEscape
        return quoted c

/-- Cuts out the text of a class up to its closing bracket. `depth` counts the brackets that are
    open and `text` holds what was cut out, last first. -/
def cutClass : Nat → Nat → List Char → ReadM (List Char)
  | 0, _, _ => throw .badClass
  | fuel + 1, depth, text => do
    match (← get).rest with
    | [] => throw .badClass
    | '\\' :: rest =>
      goto rest
      let plain ← classEscape
      cutClass fuel depth (plain.reverse ++ text)
    | c :: rest =>
      goto rest
      if c = '[' then cutClass fuel (depth + 1) (c :: text)
      else if c = ']' then
        if depth = 1 then return (c :: text).reverse
        else cutClass fuel (depth - 1) (c :: text)
      else cutClass fuel depth (c :: text)

/-- An operator between the operands of a class. -/
inductive ClassOp where
  | inter
  | diff
  | symmDiff

/-- The set that an operator makes. -/
def ClassOp.apply : ClassOp → CharClass → CharClass → CharClass
  | inter => .inter
  | diff => .diff
  | symmDiff => .symmDiff

/-- The operator that comes next. -/
def classOp? : List Char → Option (ClassOp × List Char)
  | '&' :: '&' :: cs => some (.inter, cs)
  | '-' :: '-' :: cs => some (.diff, cs)
  | '~' :: '~' :: cs => some (.symmDiff, cs)
  | _ => none

/-- Reads `[:name:]` from behind its opening bracket. -/
def asciiClass? (fold : Bool) (cs : List Char) : Option (CharClass × List Char) :=
  match cs with
  | ':' :: more =>
    let negated := more.head? = some '^'
    let body := if negated then more.drop 1 else more
    match body.dropWhile (· != ':') with
    | ':' :: ']' :: after =>
      (CharClass.ascii? (String.ofList (body.takeWhile (· != ':')))).map fun s =>
        (.complIf negated (.foldIf fold s), after)
    | _ => none
  | _ => none

/-- An item of a class: a character, which may bound a range, or a set. -/
inductive ClassItem where
  | char (c : Char)
  | set (s : CharClass)

/-- The characters of an item. -/
def ClassItem.toSet : ClassItem → CharClass
  | char c => .single c
  | set s => s

/-- Reads an item of a class. -/
def classItem (fold : Bool) : List Char → Except RegexError (ClassItem × List Char)
  | [] | ['\\'] => .error .badClass
  | '\\' :: c :: cs => do
    if let some s := letterSet? c then return (.set s, cs)
    else if c = 'p' || c = 'P' then
      let (name, rest) ← propertyName cs
      return (.set (← property (c = 'P') fold name), rest)
    else return (.char c, cs)
  | c :: cs => .ok (.char c, cs)

/-- Reads an item or a range of a class. -/
def classRange (fold : Bool) (cs : List Char) : Except RegexError (CharClass × List Char) := do
  let (first, rest) ← classItem fold cs
  match rest with
  | '-' :: next :: _ =>
    if next = ']' || next = '-' then return (first.toSet, rest)
    match first, ← classItem fold (rest.drop 1) with
    | .char lo, (.char hi, rest) =>
      if lo ≤ hi then return (.range lo hi, rest) else throw .badRange
    | _, _ => throw .badRange
  | _ => return (first.toSet, rest)

/-- Reads the text of a class from behind its opening bracket up to its closing one. -/
def readClass (fold : Bool) :
    Nat → List Char → Except RegexError (CharClass × List Char)
  | 0, _ => .error .badClass
  | fuel + 1, cs => do
    let negated := cs.head? = some '^'
    let cs := if negated then cs.drop 1 else cs
    let inner := cs.dropWhile (· = '-')
    let (start, inner) := match cs, inner with
      | '-' :: _, _ => (CharClass.single '-', inner)
      | _, ']' :: more => (CharClass.single ']', more)
      | _, _ => (CharClass.none, inner)
    let (set, rest) ← items fuel inner start none
    return (.complIf negated set, rest)
where
  /-- Reads items up to the closing bracket. `acc` is the union so far, `left` the operand on
      the left and its operator. -/
  items : Nat → List Char → CharClass → Option (CharClass × ClassOp) →
      Except RegexError (CharClass × List Char)
    | 0, _, _, _ => .error .badClass
    | fuel + 1, cs, acc, left => do
      let joined := match left with
        | some (l, op) => op.apply l (.foldIf fold acc)
        | none => .foldIf fold acc
      match classOp? cs with
      | some (op, more) => items fuel more .none (some (joined, op))
      | none =>
        match cs with
        | ']' :: more => return (joined, more)
        | '[' :: more =>
          match asciiClass? fold more with
          | some (s, after) => items fuel after (.union acc s) left
          | none =>
            let (s, after) ← readClass fold fuel more
            items fuel after (.union acc s) left
        | _ =>
          let (s, after) ← classRange fold cs
          items fuel after (.union acc s) left

/-- Reads a character class from behind its opening bracket. -/
def charClass : ReadM CharClass := do
  let s ← get
  let (negation, cs) := match s.rest with
    | '^' :: cs => (['^'], cs)
    | cs => ([], cs)
  let (bracket, cs) := match cs with
    | ']' :: cs => ([']'], cs)
    | cs => ([], cs)
  goto cs
  let text ← cutClass (cs.length + 1) 1 []
  let text := negation ++ bracket ++ text
  let (set, left) ← readClass s.flags.anyCase (2 * text.length + 2) text
  modify fun s => { s with rest := left ++ s.rest }
  return set

end PatternReader

end SyntaxHue
