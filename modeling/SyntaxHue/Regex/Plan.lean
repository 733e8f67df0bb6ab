import SyntaxHue.Regex.Part
import SyntaxHue.Regex.Program

/-!
# From expressions to programs

Of an expression that needs a way back the parts that are regular become regular parts, where
that cannot change what is found. At the start of a sequence these are the items of a fixed
extent. At its end they are all items that are regular, unless more follows the sequence; then
they too must have a fixed extent.
-/

namespace SyntaxHue

namespace Expr

/-- Whether an expression leaves nothing to choose. -/
def isPlain : Expr → Bool
  | empty | one _ | assertion _ => true
  | _ => false

/-- The program of an expression that leaves nothing to choose. -/
def plain : Expr → Program
  | one set => .one set
  | assertion a => .assertion a
  | _ => .empty

/-- The program of regular expressions in a row. -/
def planPart (es : List Expr) : Except RegexError Program := do
  let part ← (seq es).toPart false
  return if es.all isPlain then Program.row (es.map plain) else .part part

/-- Whether the expression is regular and has a fixed extent. -/
def isFixedPart (refs : List Nat) (e : Expr) : Bool :=
  e.extent.fixed && !e.needsWayBack refs

/-- The program of expressions in a row, not all of which are regular. `planned` are the programs
    that they have if more follows. -/
def planRow (refs : List Nat) (more : Bool) (es : List Expr)
    (planned : List (Except RegexError Program)) : Except RegexError Program := do
  let first := es.takeWhile (isFixedPart refs)
  let others := es.drop first.length
  let last := (others.reverse.takeWhile fun e =>
    if more then e.isFixedPart refs else !e.needsWayBack refs).reverse
  let middle ← ((planned.drop first.length).take (others.length - last.length)).mapM id
  let start ← if first.isEmpty then pure [] else List.singleton <$> planPart first
  let stop ← if last.isEmpty then pure [] else List.singleton <$> planPart last
  return Program.row (start ++ middle ++ stop)

/-- Whether an expression is a choice. -/
def isChoice : Expr → Bool
  | alt _ => true
  | _ => false

/-- Moves back over `e`, whose program is `planned`. -/
def planBack (refs : List Nat) (e : Expr) (planned : Except RegexError Program) :
    Except RegexError Program := do
  if e.extent.fixed then return .seq (.back e.extent.least) (← planned)
  else if e.needsWayBack refs then throw .unboundedLookBehind
  else
    let back ← e.toPart true
    if e.groups.isEmpty then return .backOver back none
    else return .backOver back (some (← e.toPart false))

/-- A look-behind for one of some expressions, each with its program. -/
def planBehind (refs : List Nat) (wanted : Bool)
    (branches : List (Expr × Except RegexError Program)) : Except RegexError Program := do
  let backs ← branches.mapM fun (e, planned) => planBack refs e planned
  return if wanted then Program.choice (backs.map .stay) else Program.row (backs.map .refuse)

mutual

/-- The program of an expression. `more` says that a choice in it may have to be changed because
    of what follows it. -/
def plan (refs : List Nat) (more : Bool) (e : Expr) : Except RegexError Program :=
  if !more && !e.needsWayBack refs then planPart [e]
  else
    match e with
    | empty => .ok .empty
    | one set => .ok (.one set)
    | assertion a => .ok (.assertion a)
    | seq es => planRow refs more es (planEach refs true es)
    | alt es => Program.choice <$> (planEach refs more es).mapM id
    | group n e => .group n <$> plan refs more e
    | repetition lo hi greedy e =>
      if lo = 0 && hi = some 1 then Program.optional greedy <$> plan refs more e
      else Program.repeated lo hi greedy (e.extent.least == 0) <$>
        plan refs (more || e.needsWayBack refs) e
    | look .ahead wanted e =>
      (if wanted then Program.stay else Program.refuse) <$> plan refs false e
    | look .behind wanted e =>
      if !e.extent.fixed && e.isChoice then planBehind refs wanted (planBranches refs e)
      else planBehind refs wanted [(e, plan refs false e)]
    | backref n anyCase _ => .ok (.backref n anyCase)
    | atomic e => .atomic <$> plan refs false e
    | keepOut => .ok .keepOut
    | searchStart => .ok .searchStart
    | isSet n => .ok (.isSet n)
    | cond test yes no =>
      .cond <$> plan refs more test <*> plan refs more yes <*> plan refs more no

/-- The programs of some expressions. -/
def planEach (refs : List Nat) (more : Bool) : List Expr → List (Except RegexError Program)
  | [] => []
  | e :: es => plan refs more e :: planEach refs more es

/-- The alternatives of a choice with their programs. -/
def planBranches (refs : List Nat) (e : Expr) : List (Expr × Except RegexError Program) :=
  match e with
  | alt es => es.zip (planEach refs false es)
  | _ => []

end

end Expr

end SyntaxHue
