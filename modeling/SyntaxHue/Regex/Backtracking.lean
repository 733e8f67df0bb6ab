import SyntaxHue.Regex.Program

/-!
# Searching with a way back

A program is run by one thread. Where there is a choice the thread goes on with the preferred
branch and puts the other one on a stack; when it fails, the branch on top takes its place. What
an atomic part leaves on the stack is dropped behind it: on entry the thread notes how many
branches there are. A conditional makes its test atomic in the same way; if the test fails, its
note is not taken back, and the next atomic part that ends takes it for its own.

Each time a branch takes over, one unit of a budget is spent. A search that runs out of it, or
that has too many branches, finds nothing.
-/

namespace SyntaxHue

namespace Backtracking

/-- Something that is still to be done. -/
inductive Task where
  | run (e : Program)
  /-- Notes the place. -/
  | note (slot : Nat)
  /-- Goes on with a counted loop that has made `count` passes. -/
  | times (lo : Nat) (hi : Option Nat) (greedy : Bool) (e : Program) (count : Nat)
  /-- Goes on with a loop that has made `count` passes. The last of those that need not have
      been made began at offset `mark`. -/
  | passes (lo : Nat) (greedy : Bool) (e : Program) (count : Nat) (mark : Option Nat)
  /-- Ends an atomic part. -/
  | commit
  /-- Goes back to where a look-around began. -/
  | resume (c : Cursor)
  /-- Fails, with all branches but the lowest `depth` dropped. -/
  | refuse (depth : Nat)

/-- A place in the text and what is to be done there. -/
structure Thread where
  tasks : List Task
  here : Cursor
  slots : Slots
  /-- For each atomic part that has been entered the number of branches at that time. -/
  cuts : List Nat

/-- What a thread does next. -/
inductive Move where
  | go (t : Thread)
  /-- Goes on with `t`, and with `other` if that fails. -/
  | choose (t other : Thread)
  /-- Goes on with `t` when all branches but the lowest `depth` are dropped. -/
  | commit (depth : Nat) (t : Thread)
  | fail
  /-- Fails when all branches but the lowest `depth` are dropped. -/
  | refuse (depth : Nat)
  | done (here : Cursor) (slots : Slots)
  /-- A reference asks for a text that ends before it starts. -/
  | crossed

/-- What stays the same in a search. -/
structure Context where
  /-- Where the search began. -/
  origin : Nat
  /-- The length of the text in bytes. -/
  bytes : Nat

/-- Whether `text` begins with the characters of `cs` up to case. -/
def beginsFolded : List Char → List Char → Bool
  | [], _ => true
  | _, [] => false
  | c :: cs, d :: text => foldCase c = foldCase d && beginsFolded cs text

/-- Whether `text` holds the characters of `cs` up to case. -/
def holdsFolded (cs : List Char) : List Char → Bool
  | [] => cs.isEmpty
  | d :: text => beginsFolded cs (d :: text) || holdsFolded cs text

/-- Whether `text` counts as `again`, a text of as many bytes, up to case. It does if it holds
    `again` in any place. -/
def sameFolded (again text : List Char) : Bool :=
  if text.all fun c => c.toNat < 128 then again.map Char.toLower == text.map Char.toLower
  else holdsFolded again text

/-- The place behind the characters `again`, if they come next. -/
def eatAgain? (again : List Char) (anyCase : Bool) (c : Cursor) : Option Cursor :=
  let bytes := byteLength again
  match splitBytes? bytes c.after with
  | some (text, _) =>
    if again == text || (anyCase && sameFolded again text) then some (c.forward bytes) else none
  | none => none

/-- Goes on where `there?` says, if it does. -/
def Thread.move (t : Thread) (rest : List Task) (there? : Option Cursor) : Move :=
  match there? with
  | some there => .go { t with tasks := rest, here := there }
  | none => .fail

/-- Goes on if `yes`. -/
def Thread.check (t : Thread) (rest : List Task) (yes : Bool) : Move :=
  if yes then .go { t with tasks := rest } else .fail

/-- Goes on with `again` or with `rest`, with `again` first if `greedy`. -/
def Thread.loop (t : Thread) (greedy : Bool) (again rest : List Task) : Move :=
  if greedy then .choose { t with tasks := again } { t with tasks := rest }
  else .choose { t with tasks := rest } { t with tasks := again }

/-- Moves back over a match of `p`, and takes the groups from a match of `ahead`. -/
def Thread.backOver (t : Thread) (rest : List Task) (p : Part) (ahead : Option Part) : Move :=
  match p.firstBack t.here, ahead with
  | none, _ => .fail
  | some o, none => .go { t with tasks := rest, here := o.here }
  | some o, some ahead =>
    match ahead.first t.here.offset o.here with
    | some found =>
      let slots := found.slots.copyGroups ahead.groups t.slots
      .go { t with tasks := rest, here := o.here, slots }
    | none => .fail

/-- Begins to run a program. `depth` is the number of branches. -/
def begin (ctx : Context) (depth : Nat) (t : Thread) (rest : List Task) : Program → Move
  | .empty => .go { t with tasks := rest }
  | .one set => t.move rest (t.here.eat? set)
  | .assertion a => t.check rest (a.holds t.here)
  | .part p =>
    match p.first ctx.bytes t.here with
    | some o =>
      let slots := o.slots.copyGroups p.groups t.slots
      .go { t with tasks := rest, here := o.here, slots }
    | none => .fail
  | .seq a b => .go { t with tasks := .run a :: .run b :: rest }
  | .alt a b => .choose { t with tasks := .run a :: rest } { t with tasks := .run b :: rest }
  | .group n e =>
    let slots := t.slots.note (2 * n) t.here
    .go { t with tasks := .run e :: .note (2 * n + 1) :: rest, slots }
  | .star greedy e => t.loop greedy (.run e :: .run (.star greedy e) :: rest) rest
  | .times lo hi greedy e => .go { t with tasks := .times lo hi greedy e 0 :: rest }
  | .passes lo greedy e => .go { t with tasks := .passes lo greedy e 0 none :: rest }
  | .atomic e => .go { t with tasks := .run e :: .commit :: rest, cuts := depth :: t.cuts }
  | .stay e => .go { t with tasks := .run e :: .resume t.here :: rest }
  | .refuse e =>
    .choose { t with tasks := .run e :: .refuse depth :: rest } { t with tasks := rest }
  | .back width => t.move rest (t.here.backBy? width)
  | .backOver p ahead => t.backOver rest p ahead
  | .backref n anyCase =>
    match t.slots.span? n with
    | some s =>
      if s.stop.offset < s.start.offset then .crossed
      else t.move rest (eatAgain? s.chars anyCase t.here)
    | none => .fail
  | .keepOut => .go { t with tasks := rest, slots := t.slots.note 0 t.here }
  | .searchStart => t.check rest (t.here.offset ≤ ctx.origin)
  | .isSet n => t.check rest (t.slots.entered n)
  | .cond test yes no =>
    let t := { t with cuts := depth :: t.cuts }
    .choose { t with tasks := .run test :: .commit :: .run yes :: rest }
      { t with tasks := .run no :: rest }

/-- The next move of a thread. -/
def step (ctx : Context) (depth : Nat) (t : Thread) : Move :=
  match t.tasks with
  | [] => .done t.here t.slots
  | .run e :: rest => begin ctx depth t rest e
  | .note slot :: rest => .go { t with tasks := rest, slots := t.slots.note slot t.here }
  | .times lo hi greedy e count :: rest =>
    let again : List Task := .run e :: .times lo hi greedy e (count + 1) :: rest
    if hi = some count then .go { t with tasks := rest }
    else if count < lo then .go { t with tasks := again }
    else t.loop greedy again rest
  | .passes lo greedy e count mark :: rest =>
    if 0 < count && mark = some t.here.offset then .go { t with tasks := rest }
    else if count < lo then
      .go { t with tasks := .run e :: .passes lo greedy e (count + 1) mark :: rest }
    else
      t.loop greedy (.run e :: .passes lo greedy e (count + 1) (some t.here.offset) :: rest) rest
  | .commit :: rest =>
    match t.cuts with
    | cut :: cuts => .commit cut { t with tasks := rest, cuts }
    | [] => .go { t with tasks := rest }
  | .resume c :: rest => .go { t with tasks := rest, here := c }
  | .refuse depth :: _ => .refuse depth

/-- How a search ended. -/
inductive Result where
  | found (here : Cursor) (slots : Slots)
  | failed
  /-- The budget was spent, or there were too many branches. -/
  | gaveUp
  /-- A reference asked for a text that ends before it starts. -/
  | crossed

/-- The branches that a search can hold. -/
def maxBranches : Nat := 999999

/-- Goes on with the branch on top of the stack, which costs one unit. -/
@[inline] def spend (next : Nat → Thread → List Thread → Result × Nat) (budget : Nat)
    (stack : List Thread) : Result × Nat :=
  match stack, budget with
  | [], budget => (.failed, budget)
  | _, 0 => (.gaveUp, 0)
  | t :: stack, budget + 1 => next budget t stack

/-- Runs a thread, with `depth` branches on the stack, and returns what is left of the budget. -/
def run (ctx : Context) : Nat → Nat → Nat → Thread → List Thread → Result × Nat
  | 0, budget, _, _, _ => (.gaveUp, budget)
  | fuel + 1, budget, depth, t, stack =>
    match step ctx depth t with
    | .go t => run ctx fuel budget depth t stack
    | .choose t other =>
      if depth < maxBranches then run ctx fuel budget (depth + 1) t (other :: stack)
      else (.gaveUp, budget)
    | .commit cut t => run ctx fuel budget cut t (stack.drop (depth - cut))
    | .fail => spend (fun budget => run ctx fuel budget (depth - 1)) budget stack
    | .refuse cut =>
      spend (fun budget => run ctx fuel budget (cut - 1)) budget (stack.drop (depth - cut))
    | .done here slots => (.found here slots, budget)
    | .crossed => (.crossed, budget)

/-- Steps enough for a budget of `limit` failures in a program of the given size. -/
def steps (limit size : Nat) : Nat :=
  (2 * limit + maxBranches) * (size * size + 2)

/-- The first match of `e` that starts at one of the places from `here` on. `rest` has an entry
    for each place but the last. Moving on costs one unit. -/
def search (ctx : Context) (fuel : Nat) (e : Program) : Nat → List Char → Cursor → Result
  | budget, rest, here =>
    match run ctx fuel budget 0 ⟨[.run e], here, .none, []⟩ [] with
    | (.failed, left) =>
      match left, rest, here.next? with
      | 0, _, _ => .gaveUp
      | left + 1, _ :: rest, some (_, there) => search ctx fuel e left rest there
      | _, _, _ => .failed
    | (result, _) => result

end Backtracking

end SyntaxHue
