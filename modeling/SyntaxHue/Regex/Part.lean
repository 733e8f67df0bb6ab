import SyntaxHue.Regex.Reader.Basic
import SyntaxHue.Regex.Regular
import SyntaxHue.Regex.Size

/-!
# From expressions to regular programs

An expression that needs no way back becomes a regular program. Repetitions are unfolded: copies
of what is repeated come first, as many as there have to be, and then a loop or the copies that
may be left out. All copies have labels of their own, so that a choice in one of them says
nothing about the others. The program that reads from right to left has the parts of every
sequence in the opposite order, and no groups.
-/

namespace SyntaxHue

namespace Regular

/-- What is built with labels from some number on, together with the next free label. -/
abbrev Build := Nat → Regular × Nat

/-- At most one `e`. -/
def optional (label : Nat) (greedy : Bool) (e : Regular) : Regular :=
  if greedy then .alt label e .empty else .alt label .empty e

/-- `count` times what `make` makes. -/
def copies (make : Build) : Nat → Build
  | 0, label => (.empty, label)
  | count + 1, label =>
    let (a, label) := make label
    let (b, label) := copies make count label
    (.seq a b, label)

/-- At most `count` times what `make` makes. -/
def optionals (make : Build) (greedy : Bool) : Nat → Build
  | 0, label => (.empty, label)
  | count + 1, label =>
    let (a, next) := make (label + 1)
    let (b, next) := optionals make greedy count next
    (optional label greedy (.seq a b), next)

/-- Any number of times what `make` makes. If that may be empty, a first pass is told apart, so
    that its groups are noted. -/
def loop (make : Build) (greedy maybeEmpty : Bool) : Build := fun label =>
  if maybeEmpty then
    let (a, next) := make (label + 2)
    (optional label greedy (.seq a (.star (label + 1) greedy a)), next)
  else
    let (a, next) := make (label + 1)
    (.star label greedy a, next)

/-- At least once what `make` makes. -/
def loopOnce (make : Build) (greedy : Bool) : Build := fun label =>
  let (a, next) := make (label + 1)
  (.seq a (.star label greedy a), next)

/-- At least `lo` and at most `hi` times what `make` makes. -/
def repeated (make : Build) (lo : Nat) (hi : Option Nat) (greedy maybeEmpty : Bool) : Build :=
  fun label =>
    match lo, hi with
    | 0, none => loop make greedy maybeEmpty label
    | lo + 1, none =>
      let (a, label) := copies make lo label
      let (b, label) := loopOnce make greedy label
      (.seq a b, label)
    | lo, some hi =>
      let (a, label) := copies make lo label
      let (b, label) := optionals make greedy (hi - lo) label
      (.seq a b, label)

end Regular

namespace Expr

mutual

/-- The regular program of an expression that needs no way back, to be read from right to left if
    `back`. -/
def regular (back : Bool) : Expr → Regular.Build
  | one set, label => (.one set, label)
  | assertion a, label => (.assertion a, label)
  | seq es, label => regularSeq back es label
  | alt es, label => regularAlt back es label
  | group n e, label =>
    let (a, next) := e.regular back label
    (if back then a else .group n a, next)
  | repetition lo hi greedy e, label =>
    let (lo, hi) := effectiveCounts lo hi e.takesText
    Regular.repeated (e.regular back) lo hi greedy (e.extent.least == 0) label
  | _, label => (.empty, label)

/-- The regular program of expressions in a row. -/
def regularSeq (back : Bool) : List Expr → Regular.Build
  | [], label => (.empty, label)
  | [e], label => e.regular back label
  | e :: es, label =>
    let (a, label) := e.regular back label
    let (b, label) := regularSeq back es label
    (if back then .seq b a else .seq a b, label)

/-- The regular program of alternatives. -/
def regularAlt (back : Bool) : List Expr → Regular.Build
  | [], label => (.empty, label)
  | [e], label => e.regular back label
  | e :: es, label =>
    let (a, next) := e.regular back (label + 1)
    let (b, next) := regularAlt back es next
    (.alt label a b, next)

end

/-- The part for an expression that needs no way back, to be read from right to left if `back`. -/
def toPart (back : Bool) (e : Expr) : Except RegexError Part := do
  if !e.countsOk then throw .badCount
  if e.isTooLarge then throw .tooLarge
  let (program, labels) := e.regular back 0
  return ⟨program, labels, program.size, if back then [] else e.groups⟩

end Expr

end SyntaxHue
