import SyntaxHue.Regex.Reader.Class

/-!
# Reading patterns

`Expr.read` turns the text of a pattern into an expression. A pattern is made of alternatives, an
alternative of items, and an item may be repeated. Flags that are set in the middle of a pattern
stay on up to its end; only a group that sets flags for itself puts the old ones back.
-/

namespace SyntaxHue

namespace PatternReader

/-- The assertion that a letter stands for behind a backslash. -/
def letterAssertion? : Char → Option Assertion
  | 'A' => some .textStart
  | 'z' => some .textEnd
  | 'Z' => some .textEndBeforeLineFeeds
  | '<' => some .wordStart
  | '>' => some .wordEnd
  | _ => none

/-- The assertion that a name in braces stands for behind `\b`. -/
def boundary? : String → Option Assertion
  | "start" => some .wordStart
  | "end" => some .wordEnd
  | "start-half" => some .wordStartHalf
  | "end-half" => some .wordEndHalf
  | _ => none

/-- Reads what may follow `\b` or `\B`. Braces behind it are a repetition if they have the form
    of one, and the name of a boundary otherwise. -/
def boundary (plain : Assertion) (mayBeNamed : Bool) : ReadM Expr := do
  match ← skip with
  | '{' :: more =>
    let spaced := (← get).flags.spaced
    if (counts? spaced more).isSome then return .assertion plain
    if !mayBeNamed then throw .unknownBoundary
    let name := (more.takeWhile (· != '}')).filter fun c => !(spaced && isSpace c)
    match boundary? (String.ofList name), more.dropWhile (· != '}') with
    | some a, _ :: rest =>
      goto rest
      return .assertion a
    | _, _ => throw .unknownBoundary
  | _ => return .assertion plain

/-- A reference to group `n`. -/
def reference (n : Nat) : ReadM Expr := do
  return .backref n (← get).flags.anyCase (← extentOf n)

/-- Reads an escape, from the character after the backslash. -/
def escape : ReadM Expr := do
  let s ← get
  let fold := s.flags.anyCase
  match s.rest with
  | [] => throw .badEscape
  | c :: rest =>
    if c.isDigit then
      let n ← numberedRef
      modify fun s => { s with numbered := true }
      return ← reference n
    goto rest
    if let some a := letterAssertion? c then return .assertion a
    else if let some set := letterSet? c then return .one set
    else if let some width := hexWidth? c then
      return .one (.foldIf fold (.single (← hexChar width)))
    else if let some control := controlChar? c then return .one (.single control)
    else match c with
      | 'k' =>
        let n ← if rest.head? = some '\'' then namedRef ['\''] ['\''] true
          else namedRef ['<'] ['>'] true
        reference n
      | 'b' => boundary .wordBoundary true
      | 'B' => boundary .notWordBoundary false
      | 'h' => return .one .hexDigit
      | 'H' => return .one (.compl .hexDigit)
      | 'p' | 'P' =>
        let (name, rest) ← propertyName rest
        goto rest
        return .one (← property (c = 'P') fold name)
      | 'K' => return .keepOut
      | 'G' => return .searchStart
      | 'O' => return .one .all
      | _ => if c.isAlpha then throw .badEscape else return .one (.single c)

/-- Whether an expression may be repeated. -/
def repeatable : Expr → Bool
  | .empty | .look .. | .keepOut | .searchStart | .isSet _ => false
  | _ => true

/-- Reads what follows an item: a repetition, if there is one. -/
def repetition (e : Expr) : ReadM Expr := do
  let cs ← skip
  let s ← get
  let counts : Option (Nat × Option Nat × List Char) := match cs with
    | '?' :: more => some (0, some 1, more)
    | '*' :: more => some (0, none, more)
    | '+' :: more => some (1, none, more)
    | '{' :: more => counts? s.flags.spaced more
    | _ => none
  match counts with
  | none => return e
  | some (lo, hi, more) =>
    if !repeatable e then throw .nothingToRepeat
    goto more
    let more ← skip
    let lazily := more.head? = some '?'
    if lazily then goto (more.drop 1)
    let repeated := Expr.repetition lo hi (lazily == s.flags.swapGreed) e
    let rest := (← get).rest
    if rest.head? = some '+' then
      goto (rest.drop 1)
      return .atomic repeated
    else return repeated

/-- Expects a closing parenthesis. -/
def closeGroup : ReadM Unit := do
  match (← get).rest with
  | ')' :: rest => goto rest
  | _ => throw .unclosedGroup

/-- Opens a group that captures. -/
def openGroup (name? : Option (List Char)) : ReadM Nat := do
  let s ← get
  let n := s.groups + 1
  let names := match name? with
    | some name => (String.ofList name, n) :: s.names
    | none => s.names
  set { s with groups := n, names }
  return n

/-- Closes group `n`, which holds `e`. -/
def finishGroup (n : Nat) (e : Expr) : ReadM Expr := do
  closeGroup
  modify fun s => { s with extents := (n, e.extent) :: s.extents }
  return .group n e

/-- The deepest nesting of groups. -/
def maxDepth : Nat := 64

/-- Sets or clears a flag. -/
def flag (c : Char) (on : Bool) (f : RegexFlags) : Option RegexFlags :=
  match c with
  | 'i' => some { f with anyCase := on }
  | 'm' => some { f with multiLine := on }
  | 's' => some { f with dotAll := on }
  | 'U' => some { f with swapGreed := on }
  | 'x' => some { f with spaced := on }
  | 'u' => if on then some f else none
  | _ => none

/-- Reads flags up to the parenthesis or colon that ends them, which is returned. Flags start
    where `start` characters are left. -/
def readFlags (start : Nat) : Nat → Bool → ReadM Char
  | 0, _ => throw .unknownFlag
  | fuel + 1, negated => do
    let cs ← skip
    let passed := start - cs.length
    match cs with
    | [] => throw .unclosedGroup
    | ')' :: rest =>
      if passed = 0 || (negated && passed = 1) then throw .unknownFlag
      goto rest
      return ')'
    | ':' :: rest =>
      if negated && passed = 1 then throw .unknownFlag
      goto rest
      return ':'
    | '-' :: rest =>
      if negated then throw .unknownFlag
      goto rest
      readFlags start fuel true
    | c :: rest =>
      match flag c (!negated) (← get).flags with
      | none => throw .unknownFlag
      | some f =>
        modify fun s => { s with rest, flags := f }
        readFlags start fuel negated

/-- The two branches that the body of a conditional stands for. -/
def branches : Expr → Expr × Expr
  | .alt [yes, no] => (yes, no)
  | .alt (yes :: others) => (yes, .alt others)
  | e => (e, .empty)

/-- Whether `e` is empty. -/
def isEmpty : Expr → Bool
  | .empty => true
  | _ => false

/-- Reads the condition of a conditional if it is a reference. -/
def condition? : ReadM (Option Nat) := do
  match (← get).rest with
  | '<' :: _ => some <$> namedRef ['<'] ['>'] true
  | '\'' :: _ => some <$> namedRef ['\''] ['\''] true
  | c :: rest =>
    if c.isDigit then some <$> numberedRef
    else if (c = '+' || c = '-') && rest.head?.any Char.isDigit then
      let n ← namedRef [] [] true
      return some n
    else return none
  | [] => throw .unclosedGroup

mutual

/-- Reads alternatives. -/
def alternatives : Nat → Nat → ReadM Expr
  | 0, _ => throw .tooDeep
  | fuel + 1, depth => do
    let first ← branch fuel depth
    match ← otherAlternatives fuel depth with
    | [] =>
      let s ← get
      if s.numbered && !s.names.isEmpty then throw .mixedReferences
      return first
    | others => return .alt (first :: others)
termination_by structural fuel => fuel

/-- Reads the alternatives that follow one. -/
def otherAlternatives : Nat → Nat → ReadM (List Expr)
  | 0, _ => throw .tooDeep
  | fuel + 1, depth => do
    match ← skip with
    | '|' :: rest =>
      goto rest
      let e ← branch fuel depth
      return e :: (← otherAlternatives fuel depth)
    | _ => return []
termination_by structural fuel => fuel

/-- Reads one alternative. -/
def branch : Nat → Nat → ReadM Expr
  | 0, _ => throw .tooDeep
  | fuel + 1, depth => do
    match ← items fuel depth with
    | [] => return .empty
    | [e] => return e
    | es => return .seq es
termination_by structural fuel => fuel

/-- Reads items up to the end of an alternative. -/
def items : Nat → Nat → ReadM (List Expr)
  | 0, _ => throw .tooDeep
  | fuel + 1, depth => do
    let before := (← get).rest.length
    if before = 0 then return []
    let e ← repetition (← atom fuel depth)
    if isEmpty e then
      if (← get).rest.length = before then return []
      items fuel depth
    else return e :: (← items fuel depth)
termination_by structural fuel => fuel

/-- Reads one item. -/
def atom : Nat → Nat → ReadM Expr
  | 0, _ => throw .tooDeep
  | fuel + 1, depth => do
    let cs ← skip
    let f := (← get).flags
    match cs with
    | [] => return .empty
    | '.' :: rest =>
      goto rest
      return .one (if f.dotAll then .all else .notLineFeed)
    | '^' :: rest =>
      goto rest
      return .assertion (if f.multiLine then .lineStart else .textStart)
    | '$' :: rest =>
      goto rest
      return .assertion (if f.multiLine then .lineEnd else .textEnd)
    | '(' :: rest =>
      goto rest
      if depth + 1 ≥ maxDepth then throw .tooDeep
      group fuel (depth + 1)
    | '\\' :: rest =>
      goto rest
      escape
    | '[' :: rest =>
      goto rest
      return .one (← charClass)
    | c :: rest =>
      if c = '+' || c = '*' || c = '?' || c = '|' || c = ')' then return .empty
      goto rest
      return .one (.foldIf f.anyCase (.single c))
termination_by structural fuel => fuel

/-- Reads a group, from behind its opening parenthesis. -/
def group : Nat → Nat → ReadM Expr
  | 0, _ => throw .tooDeep
  | fuel + 1, depth => do
    match ← skip with
    | '?' :: '=' :: rest => look fuel depth .ahead true rest
    | '?' :: '!' :: rest => look fuel depth .ahead false rest
    | '?' :: '<' :: '=' :: rest => look fuel depth .behind true rest
    | '?' :: '<' :: '!' :: rest => look fuel depth .behind false rest
    | '?' :: '<' :: rest => namedGroup fuel depth ['<'] ['>'] ('<' :: rest)
    | '?' :: '\'' :: rest => namedGroup fuel depth ['\''] ['\''] ('\'' :: rest)
    | '?' :: 'P' :: '<' :: rest => namedGroup fuel depth ['<'] ['>'] ('<' :: rest)
    | '?' :: 'P' :: '=' :: rest =>
      goto rest
      reference (← namedRef [] [')'] false)
    | '?' :: '>' :: rest =>
      goto rest
      let e ← alternatives fuel depth
      closeGroup
      return .atomic e
    | '?' :: '(' :: rest =>
      goto rest
      conditional fuel depth
    | '?' :: rest =>
      goto rest
      let old := (← get).flags
      match ← readFlags rest.length (rest.length + 1) false with
      | ')' => return .empty
      | _ =>
        let e ← alternatives fuel depth
        closeGroup
        modify fun s => { s with flags := old }
        return e
    | _ =>
      let n ← openGroup none
      finishGroup n (← alternatives fuel depth)
termination_by structural fuel => fuel

/-- Reads the inside of a look-around. -/
def look : Nat → Nat → Side → Bool → List Char → ReadM Expr
  | 0, _, _, _, _ => throw .tooDeep
  | fuel + 1, depth, side, wanted, rest => do
    goto rest
    let e ← alternatives fuel depth
    closeGroup
    return .look side wanted e
termination_by structural fuel => fuel

/-- Reads a group with a name. -/
def namedGroup : Nat → Nat → List Char → List Char → List Char → ReadM Expr
  | 0, _, _, _, _ => throw .tooDeep
  | fuel + 1, depth, opening, closing, cs => do
    match name? opening closing cs with
    | none => throw .badGroupName
    | some (name, rest) =>
      let n ← openGroup (some name)
      goto rest
      finishGroup n (← alternatives fuel depth)
termination_by structural fuel => fuel

/-- Reads a conditional, from behind the parenthesis that opens its condition. A condition that
    is a reference asks whether its group has a text. -/
def conditional : Nat → Nat → ReadM Expr
  | 0, _ => throw .tooDeep
  | fuel + 1, depth => do
    let test ← match ← condition? with
      | some n => pure (.isSet n)
      | none =>
        match ← alternatives fuel depth with
        | .backref n _ _ => pure (.isSet n)
        | e => pure e
    closeGroup
    let before := (← get).rest.length
    let body ← alternatives fuel depth
    let moved := (← get).rest.length != before
    closeGroup
    let (yes, no) := branches body
    match test, moved with
    | .isSet n, false => return .isSet n
    | _, false => throw .badCondition
    | _, true => return if isEmpty yes && isEmpty no then test else .cond test yes no
termination_by structural fuel => fuel

end

end PatternReader

/-- An expression together with what its pattern says about groups. -/
structure ReadPattern where
  expr : Expr
  /-- The number of groups. -/
  groups : Nat
  /-- The groups that are referred to. -/
  refs : List Nat

/-- Reads a pattern. -/
def Expr.read (pattern : List Char) : Except RegexError ReadPattern := do
  let reader : PatternReader := { rest := pattern, size := byteLength pattern }
  let (expr, reader) ← (PatternReader.alternatives (8 * pattern.length + 8) 0).run reader
  if !reader.rest.isEmpty then throw .unopenedGroup
  if reader.refs.all fun n => 1 ≤ n && n ≤ reader.groups then
    return ⟨expr, reader.groups, reader.refs⟩
  else throw .unknownGroup

end SyntaxHue
