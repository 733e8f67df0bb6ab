import Std.Data.TreeMap.Basic
import SyntaxHue.Regex.Intervals
import SyntaxHue.Regex.Syntax

/-!
# The size of regular expressions

Counted repetitions are unfolded, so a short pattern can stand for a huge program. The size of a
regular expression is that of two automata that read the bytes of a text one by one, to the right
and to the left, in bytes of memory: 32 for a state, 4 for each way out of a state that branches,
and 8 for each range of a state that reads one of several ranges of bytes. Reading to the right a
group takes two states. Reading to the left a class with longer characters takes a state for each
byte, where characters share the states of the bytes that they begin with.
-/

namespace SyntaxHue

/-- Ranges of bytes, one for each byte of a character. -/
abbrev ByteRanges := List (Nat × Nat)

/-- The characters from `lo` to `hi`, which have `k` bytes behind their first, as ranges of bytes.
    `mark` is what the first byte has besides its part of the code point. -/
def byteRanges (mark : Nat) : Nat → Nat → Nat → List ByteRanges
  | 0, lo, hi => [[(mark + lo, mark + hi)]]
  | k + 1, lo, hi =>
    let unit := Nat.pow 64 (k + 1)
    let first := lo / unit
    let last := hi / unit
    let within (lead lo hi : Nat) : List ByteRanges :=
      (byteRanges 0x80 k lo hi).map ((mark + lead, mark + lead) :: ·)
    if first = last then within first (lo % unit) (hi % unit)
    else
      let wholeHead := lo % unit = 0
      let wholeTail := hi % unit = unit - 1
      let head := if wholeHead then [] else within first (lo % unit) (unit - 1)
      let tail := if wholeTail then [] else within last 0 (hi % unit)
      let start := if wholeHead then first else first + 1
      let stop := if wholeTail then last + 1 else last
      let middle := if start < stop then
        [(mark + start, mark + (stop - 1)) :: List.replicate (k + 1) (0x80, 0xbf)] else []
      head ++ middle ++ tail

/-- The code points whose characters have the same number of bytes: the mark of the first byte,
    the number of the others, and the bounds. Surrogates are left out. -/
def byteLengths : List (Nat × Nat × Nat × Nat) :=
  [(0, 0, 0, 0x7f), (0xc0, 1, 0x80, 0x7ff), (0xe0, 2, 0x800, 0xd7ff), (0xe0, 2, 0xe000, 0xffff),
   (0xf0, 3, 0x10000, lastCode)]

/-- The characters of some intervals as ranges of bytes, in order. -/
def Intervals.encoded (rs : Intervals) : List ByteRanges :=
  rs.flatMap fun r => byteLengths.flatMap fun (mark, k, lo, hi) =>
    if max lo r.1 ≤ min hi r.2 then byteRanges mark k (max lo r.1) (min hi r.2) else []

/-- The states and the other memory of a part of an automaton. -/
structure Tally where
  states : Nat
  bytes : Nat

namespace Tally

/-- The memory in bytes. -/
def memory (t : Tally) : Nat :=
  32 * t.states + t.bytes

/-- The most memory that an automaton may take. -/
def maxMemory : Nat := 10485760

/-- Whether the memory is more than an automaton may take. -/
def isTooLarge (t : Tally) : Bool :=
  maxMemory < t.memory

end Tally

/-- The states that read a byte towards some other state, by the number of their slot. The slots
    are few: a new state may take the slot of an older one, which is not shared from then on. -/
abbrev SharedStates := Std.TreeMap Nat ((Nat × Nat × Nat) × Nat)

namespace SharedStates

/-- The slot of the state that goes to state `goal` with a byte from `lo` to `hi`. -/
def slot (goal lo hi : Nat) : Nat :=
  let mix (h : UInt64) (n : Nat) : UInt64 := (h ^^^ n.toUInt64) * 1099511628211
  (mix (mix (mix 14695981039346656037 goal) lo) hi % 1000).toNat

/-- Adds the states of a character whose bytes end at state `goal`. `next` is the number of the
    next state. -/
def addPath (shared : SharedStates) (next goal : Nat) : ByteRanges → SharedStates × Nat
  | [] => (shared, next)
  | (lo, hi) :: rest =>
    let key := (goal, lo, hi)
    let slot := slot goal lo hi
    match shared.get? slot with
    | some (other, state) =>
      if other = key then addPath shared next state rest
      else addPath (shared.insert slot (key, next)) (next + 1) next rest
    | none => addPath (shared.insert slot (key, next)) (next + 1) next rest

/-- The number of the next state when the states of some characters have been added. All of them
    end at state `goal`. -/
def addPaths (shared : SharedStates) (next goal : Nat) : List ByteRanges → Nat
  | [] => next
  | path :: paths =>
    let (shared, next) := addPath shared next goal path
    addPaths shared next goal paths

end SharedStates

/-- The states that read one of several ranges of bytes, each with the states that it goes to. -/
abbrev RangeStates := List (List ((Nat × Nat) × Nat))

namespace RangeStates

/-- Puts paths together that begin with the same range. -/
def grouped : List ByteRanges → List ((Nat × Nat) × List ByteRanges)
  | [] => []
  | [] :: paths => grouped paths
  | (r :: rest) :: paths =>
    match grouped paths with
    | (s, rests) :: others =>
      if r = s then (r, rest :: rests) :: others else (r, [rest]) :: (s, rests) :: others
    | [] => [(r, [rest])]

/-- Adds the states for some paths, and returns them with the number of the first. States that do
    the same are one. State 0 is the end, and `depth` is at least the length of the paths. -/
def add : Nat → List ByteRanges → RangeStates → RangeStates × Nat
  | 0, _, states => (states, 0)
  | depth + 1, paths, states =>
    match grouped paths with
    | [] => (states, 0)
    | groups =>
      let (states, ways) := groups.foldl (fun (states, ways) (r, rests) =>
        let (states, goal) := add depth rests states
        (states, (r, goal) :: ways)) (states, [])
      match states.idxOf? ways with
      | some i => (states, i + 1)
      | none => (states ++ [ways], states.length + 1)

end RangeStates

/-- What an expression adds to an automaton. -/
inductive Weight where
  | leaf (t : Tally)
  /-- The characters of a class, read to the left. -/
  | paths (ps : List ByteRanges)
  | row (ws : List Weight)
  | times (n : Nat) (w : Weight)

namespace Weight

/-- Some states, and some other memory. -/
def plain (states bytes : Nat) : Weight :=
  leaf ⟨states, bytes⟩

/-- What one character of a class adds. -/
def ofIntervals (forward : Bool) (rs : Intervals) : Weight :=
  match rs with
  | [] => plain 1 0
  | [(lo, hi)] => if lo = hi then plain (Char.ofNat lo).utf8Size 0 else several rs
  | _ => several rs
where
  /-- What a class of several characters adds. -/
  several (rs : Intervals) : Weight :=
    if rs.all fun r => r.2 < 128 then plain 2 (8 * rs.length)
    else if forward then
      let states := (RangeStates.add 4 rs.encoded []).1
      plain (states.length + 1) (states.foldl (fun n ways => n + 8 * ways.length) 0)
    else paths rs.encoded

/-- What a repetition of something that adds `w` adds. -/
def repetition (lo : Nat) (hi : Option Nat) (maybeEmpty : Bool) (w : Weight) : Weight :=
  let optional := row [plain 1 8, w]
  match lo, hi with
  | 0, none => if maybeEmpty then row [w, plain 3 16] else optional
  | lo, none => row [times lo w, plain 1 8]
  | 0, some 0 => plain 1 0
  | 0, some 1 => row [optional, plain 1 0]
  | 0, some hi => row [plain 2 0, times hi optional]
  | lo, some hi =>
    if hi ≤ lo then times lo w else row [times lo w, plain 1 0, times (hi - lo) optional]

/-- Adds something `n` times, but no more once it is too large. -/
def addTimes (add : Tally → Tally) : Nat → Tally → Tally
  | 0, t => t
  | n + 1, t => if t.isTooLarge then t else addTimes add n (add t)

mutual

/-- Adds a weight to a tally. -/
def addTo : Weight → Tally → Tally
  | leaf u, t => ⟨t.states + u.states, t.bytes + u.bytes⟩
  | paths ps, t =>
    ⟨SharedStates.addPaths ∅ (t.states + 2) (t.states + 1) ps, t.bytes + 4 * ps.length⟩
  | row ws, t => addRow ws t
  | times n w, t => addTimes w.addTo n t

/-- Adds some weights to a tally. -/
def addRow : List Weight → Tally → Tally
  | [], t => t
  | w :: ws, t => addRow ws (w.addTo t)

end

end Weight

/-- How often a repetition is unfolded. What takes no text is not repeated. -/
def effectiveCounts (lo : Nat) (hi : Option Nat) (takesText : Bool) : Nat × Option Nat :=
  if takesText then (lo, hi) else (min lo 1, some (min (hi.getD 1) 1))

namespace Expr

mutual

/-- Whether some match of a regular expression may take text. -/
def takesText : Expr → Bool
  | one _ => true
  | seq es | alt es => anyTakesText es
  | group _ e => e.takesText
  | repetition _ hi _ e => hi != some 0 && e.takesText
  | _ => false

/-- Whether some match of one of the expressions may take text. -/
def anyTakesText : List Expr → Bool
  | [] => false
  | e :: es => e.takesText || anyTakesText es

end

mutual

/-- What a regular expression adds to an automaton. -/
def weight (forward : Bool) : Expr → Weight
  | one set => .ofIntervals forward set.intervals
  | seq es => .row (weights forward es)
  | alt es => .row (.plain 2 (4 * es.length) :: weights forward es)
  | group _ e => if forward then .row [.plain 2 0, e.weight forward] else e.weight forward
  | repetition lo hi _ e =>
    let (lo, hi) := effectiveCounts lo hi e.takesText
    .repetition lo hi (e.extent.least == 0) (e.weight forward)
  | _ => .plain 1 0

/-- What some regular expressions add to an automaton. -/
def weights (forward : Bool) : List Expr → List Weight
  | [] => []
  | e :: es => e.weight forward :: weights forward es

end

mutual

/-- The number of items of a regular expression when its repetitions are unfolded. -/
def items : Expr → Nat
  | seq es | alt es => itemSum es + 1
  | group _ e => e.items + 1
  | repetition lo hi _ e =>
    let (lo, hi) := effectiveCounts lo hi e.takesText
    max lo (hi.getD 1) * e.items + 1
  | _ => 1

/-- The number of items of some regular expressions. -/
def itemSum : List Expr → Nat
  | [] => 0
  | e :: es => e.items + itemSum es

end

/-- Whether the automaton for a regular expression is too large. Before the expression it has a
    loop over the text that is passed, and behind it a final state; to the right, the whole match
    is a group. -/
def isTooLargeFor (forward : Bool) (e : Expr) : Bool :=
  let before : Tally := ⟨3, 16⟩
  let around := Weight.plain (if forward then 3 else 1) 0
  ((Weight.row [around, e.weight forward]).addTo before).isTooLarge

/-- A regular expression without the group of the whole match around it. -/
def withoutMark : Expr → Expr
  | group 0 e => e
  | e => e

/-- Whether a regular expression is too large. One of up to a hundred items is not measured: with
    the classes that have names it is small enough. -/
def isTooLarge (e : Expr) : Bool :=
  let e := e.withoutMark
  100 < e.items && (e.isTooLargeFor true || e.isTooLargeFor false)

mutual

/-- Whether all counts in a regular expression are in order, and none of them is too high to be
    written down. -/
def countsOk : Expr → Bool
  | seq es | alt es => allCountsOk es
  | group _ e => e.countsOk
  | repetition lo hi _ e =>
    lo < Nat.pow 2 32 && hi.all (fun hi => lo ≤ hi && hi < Nat.pow 2 32) && e.countsOk
  | _ => true

/-- Whether all counts in some regular expressions are in order. -/
def allCountsOk : List Expr → Bool
  | [] => true
  | e :: es => e.countsOk && allCountsOk es

end

end Expr

end SyntaxHue
