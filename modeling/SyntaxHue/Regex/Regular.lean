import Std.Data.TreeMap.Basic
import Std.Data.TreeSet.Basic
import SyntaxHue.Regex.Syntax

/-!
# Regular programs

A regular program is an expression without references, look-around and atomic parts, with its
repetitions unfolded down to loops. What a choice leads to depends on its label and on the place
only, so `Regular.run`, which tries the threads of a stack from the top, takes no choice twice at
one place: the second time it would fail again. The search is therefore linear in the text, and
it finds the match that comes first in the order of the alternatives.
-/

namespace SyntaxHue

/-- The places that a search has noted. Group `n` starts at slot `2 * n` and ends at the slot
    behind it; group 0 is the match. -/
abbrev Slots := Std.TreeMap Nat Cursor

namespace Slots

/-- Nothing noted. -/
def none : Slots := ∅

/-- Notes a place. -/
def note (s : Slots) (slot : Nat) (c : Cursor) : Slots :=
  s.insert slot c

/-- The text of group `n`, if the group took part. -/
def span? (s : Slots) (n : Nat) : Option Span := do
  return ⟨← s.get? (2 * n), ← s.get? (2 * n + 1)⟩

/-- Whether group `n` has been entered. -/
def entered (s : Slots) (n : Nat) : Bool :=
  s.contains (2 * n)

/-- Takes over the text of group `n` from `t`. -/
def copyGroup (t : Slots) (s : Slots) (n : Nat) : Slots :=
  match t.span? n with
  | some span => (s.note (2 * n) span.start).note (2 * n + 1) span.stop
  | .none => (s.erase (2 * n)).erase (2 * n + 1)

/-- Takes over the text of some groups from `t`. -/
def copyGroups (t : Slots) (groups : List Nat) (s : Slots) : Slots :=
  groups.foldl t.copyGroup s

end Slots

/-- The place behind one character of `set`. -/
def Cursor.eat? (set : CharClass) (c : Cursor) : Option Cursor :=
  match c.next? with
  | some (x, there) => if set.mem x then some there else none
  | none => none

/-- The place before one character of `set`. -/
def Cursor.eatBack? (set : CharClass) (c : Cursor) : Option Cursor :=
  match c.prevChar? with
  | some x => if set.mem x then c.back? else none
  | none => none

/-- A regular program. -/
inductive Regular where
  | empty
  | one (set : CharClass)
  | assertion (a : Assertion)
  | seq (a b : Regular)
  /-- First `a`, then `b`. -/
  | alt (label : Nat) (a b : Regular)
  | group (n : Nat) (e : Regular)
  /-- Any number of times `e`, as often as possible first if `greedy`. -/
  | star (label : Nat) (greedy : Bool) (e : Regular)

namespace Regular

/-- A measure of the work in a program. -/
def size : Regular → Nat
  | empty | one _ | assertion _ => 1
  | seq a b | alt _ a b => a.size + b.size + 1
  | group _ e | star _ _ e => e.size + 2

/-- How a program reads a text. -/
structure Reading where
  /-- Whether it reads from right to left. -/
  back : Bool
  /-- The offset where reading to the right stops. -/
  bound : Nat

/-- Moves over one character of `set`. -/
def Reading.eat? (r : Reading) (set : CharClass) (c : Cursor) : Option Cursor :=
  if r.back then c.eatBack? set
  else if c.offset < r.bound then c.eat? set
  else none

/-- Something that is still to be done. -/
inductive Task where
  | run (e : Regular)
  /-- Notes the place. -/
  | note (slot : Nat)

/-- A place in the text and what is to be done there. -/
structure Thread where
  tasks : List Task
  here : Cursor
  slots : Slots

/-- A finished thread. -/
structure Outcome where
  here : Cursor
  slots : Slots

/-- The choices that have been taken, each numbered by its label and its place. -/
abbrev Taken := Std.TreeSet Nat

/-- The number of the choice `label` at an offset, out of `labels` choices. -/
def choice (labels label offset : Nat) : Nat :=
  offset * labels + label

/-- Tries the threads of a stack from the top. -/
def run (r : Reading) (labels : Nat) : Nat → List Thread → Taken → Option Outcome × Taken
  | 0, _, taken => (none, taken)
  | _, [], taken => (none, taken)
  | fuel + 1, ⟨tasks, here, slots⟩ :: stack, taken =>
    match tasks with
    | [] => (some ⟨here, slots⟩, taken)
    | .note slot :: rest =>
      run r labels fuel (⟨rest, here, slots.note slot here⟩ :: stack) taken
    | .run e :: rest =>
      match e with
      | .empty => run r labels fuel (⟨rest, here, slots⟩ :: stack) taken
      | .one set =>
        match r.eat? set here with
        | some there => run r labels fuel (⟨rest, there, slots⟩ :: stack) taken
        | none => run r labels fuel stack taken
      | .assertion a =>
        if a.holds here then run r labels fuel (⟨rest, here, slots⟩ :: stack) taken
        else run r labels fuel stack taken
      | .seq a b => run r labels fuel (⟨.run a :: .run b :: rest, here, slots⟩ :: stack) taken
      | .group n a =>
        run r labels fuel
          (⟨.run a :: .note (2 * n + 1) :: rest, here, slots.note (2 * n) here⟩ :: stack) taken
      | .alt label a b =>
        let key := choice labels label here.offset
        if taken.contains key then run r labels fuel stack taken
        else
          run r labels fuel
            (⟨.run a :: rest, here, slots⟩ :: ⟨.run b :: rest, here, slots⟩ :: stack)
            (taken.insert key)
      | .star label greedy a =>
        let key := choice labels label here.offset
        if taken.contains key then run r labels fuel stack taken
        else
          let again : Thread := ⟨.run a :: .run e :: rest, here, slots⟩
          let done : Thread := ⟨rest, here, slots⟩
          run r labels fuel (if greedy then again :: done :: stack else done :: again :: stack)
            (taken.insert key)

/-- Steps enough for a program of `labels` labels and the given size to take every choice once
    at each place of a text of `bytes` bytes. -/
def steps (labels size bytes : Nat) : Nat :=
  2 * (labels * (bytes + 1) + 1) * (size * size + 2)

end Regular

/-- A regular program that is ready to be run. -/
structure Part where
  program : Regular
  labels : Nat
  size : Nat
  /-- The groups in the program. -/
  groups : List Nat

namespace Part

/-- The first match that starts at `here` and ends at offset `bound` or before. -/
def first (p : Part) (bound : Nat) (here : Cursor) : Option Regular.Outcome :=
  (Regular.run ⟨false, bound⟩ p.labels (Regular.steps p.labels p.size bound)
    [⟨[.run p.program], here, .none⟩] ∅).1

/-- The first match, read from right to left, that ends at `here`. -/
def firstBack (p : Part) (here : Cursor) : Option Regular.Outcome :=
  (Regular.run ⟨true, 0⟩ p.labels (Regular.steps p.labels p.size here.offset)
    [⟨[.run p.program], here, .none⟩] ∅).1

/-- The first match that starts at `here` or at one of the places behind it. `rest` has an entry
    for each of those places. Choices that were taken from one place are not taken again from a
    later one, where they would fail again. -/
def searchFrom (p : Part) (bound : Nat) :
    List Char → Cursor → Regular.Taken → Option Regular.Outcome
  | rest, here, taken =>
    match Regular.run ⟨false, bound⟩ p.labels (Regular.steps p.labels p.size bound)
        [⟨[.run p.program], here, .none⟩] taken with
    | (some found, _) => some found
    | (none, taken) =>
      match rest, here.next? with
      | _ :: rest, some (_, there) => p.searchFrom bound rest there taken
      | _, _ => none

/-- The leftmost match from `here` on in a text of `bytes` bytes. -/
def search (p : Part) (bytes : Nat) (here : Cursor) : Option Regular.Outcome :=
  p.searchFrom bytes here.after here ∅

end Part

end SyntaxHue
