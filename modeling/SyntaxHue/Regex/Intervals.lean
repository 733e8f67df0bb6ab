import SyntaxHue.Regex.CharClass

/-!
# Classes as intervals

The code points of a class as a list of intervals, ascending, disjoint and not adjacent. Both ends
of an interval belong to it. Surrogates may lie in an interval although they are no characters.
-/

namespace SyntaxHue

/-- The intervals of code points. -/
abbrev Intervals := List (Nat × Nat)

/-- The greatest code point. -/
def lastCode : Nat := 0x10ffff

namespace Intervals

/-- Adds an interval behind those of `rs`, which come last first. -/
def push (rs : Intervals) (r : Nat × Nat) : Intervals :=
  match rs with
  | [] => [r]
  | last :: others =>
    if r.1 ≤ last.2 + 1 then (last.1, max last.2 r.2) :: others else r :: rs

/-- Puts intervals in order and joins those that meet. -/
def ofList (rs : List (Nat × Nat)) : Intervals :=
  ((rs.mergeSort fun a b => a.1 ≤ b.1).foldl push []).reverse

/-- The gaps between some intervals, from `n` on. -/
def gapsFrom : Nat → Intervals → Intervals
  | n, [] => if n ≤ lastCode then [(n, lastCode)] else []
  | n, r :: rs =>
    if n < r.1 then (n, r.1 - 1) :: gapsFrom (r.2 + 1) rs else gapsFrom (r.2 + 1) rs

/-- The code points in none of the intervals. -/
def gaps (rs : Intervals) : Intervals :=
  gapsFrom 0 rs

/-- The code points in `rs` or `ss`. -/
def join (rs ss : Intervals) : Intervals :=
  ofList (rs ++ ss)

/-- The code points in both `rs` and `ss`. -/
def meet (rs ss : Intervals) : Intervals :=
  gaps (join (gaps rs) (gaps ss))

/-- The number of code points. -/
def size (rs : Intervals) : Nat :=
  rs.foldl (fun n r => n + (r.2 + 1 - r.1)) 0

/-- The code points, one by one. -/
def codes (rs : Intervals) : List Nat :=
  rs.flatMap fun r => (List.range (r.2 + 1 - r.1)).map (r.1 + ·)

/-- The code points of a list. -/
def ofCodes (ns : List Nat) : Intervals :=
  ofList (ns.map fun n => (n, n))

/-- The runs of some categories in a part of the table of categories. -/
def ofRuns (cats : List Category) : List (Nat × Category) → Intervals
  | [] => []
  | [(first, cat)] => if cats.contains cat then [(first, lastCode)] else []
  | (first, cat) :: (next, other) :: rest =>
    let others := ofRuns cats ((next, other) :: rest)
    if cats.contains cat then (first, next - 1) :: others else others

/-- The code points of some categories. -/
def ofCategories (cats : List Category) : Intervals :=
  ofList (ofRuns cats Category.runs.toList)

end Intervals

/-- The code points that case folding moves, and those that they go to. -/
def foldedCodes : List Nat :=
  foldRows.toList.flatMap fun row =>
    (List.range ((row.last - row.first) / row.stride + 1)).flatMap fun i =>
      let n := row.first + i * row.stride
      [n, row.apply n]

/-- The intervals of a property. -/
def CharProperty.intervals (p : CharProperty) : Intervals :=
  let within := Intervals.ofList (Intervals.ofCategories p.categories ++ p.also)
  if p.without.isEmpty then within else within.meet (Intervals.ofList p.without).gaps

namespace CharClass

/-- A class that is closed under case variants, if the intervals without them are `rs`. -/
def foldedIntervals (a : CharClass) (rs : Intervals) : Intervals :=
  if rs.size ≤ 1000 then
    let chars := (rs.codes.filter fun n => n.isValidChar).map Char.ofNat
    rs.join (.ofCodes ((chars.flatMap caseVariants).map Char.toNat))
  else rs.join (.ofCodes (foldedCodes.filter fun n => (anyCase a).mem (Char.ofNat n)))

/-- The intervals of a class. -/
def intervals : CharClass → Intervals
  | none => []
  | range lo hi => [(lo.toNat, hi.toNat)]
  | word => CharProperty.word.intervals
  | digit => CharProperty.decimal.intervals
  | blank => CharProperty.blank.intervals
  | property p => p.intervals
  | union a b => a.intervals.join b.intervals
  | inter a b => a.intervals.meet b.intervals
  | compl a => a.intervals.gaps
  | anyCase a => foldedIntervals a a.intervals

end CharClass

end SyntaxHue
