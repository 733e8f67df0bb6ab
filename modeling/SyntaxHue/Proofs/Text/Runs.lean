import SyntaxHue.Text.Category
import Mathlib.Data.List.Basic

/-!
# Runs of characters

The category of a character is that of the run of the table in which the character is: the search
by halves ends at such a run. So what holds of each run, its category and its bounds holds of all
characters, and one pass over the text of the table is enough to check it.
-/

namespace SyntaxHue

namespace Category

/-! ### The runs as a list -/

/-- The run that is being read, if there is one. -/
def opened (first : Nat) : Option Category → List (Nat × Category)
  | none => []
  | some cat => [(first, cat)]

/-- Reads runs, as `readRuns` does, into a list. -/
def runsFrom : List Char → Nat → Option Category → Nat → List (Nat × Category)
  | [], first, cat, _ => opened first cat
  | c :: cs, first, cat, len =>
    if c.isDigit then runsFrom cs first cat (10 * len + (c.toNat - 48))
    else
      let width := if cat.isNone then 0 else if len = 0 then 1 else len
      opened first cat ++ runsFrom cs (first + width) (ofLetter c) 0

theorem toList_push (first : Nat) (cat : Option Category) (runs : Array (Nat × Category)) :
    (readRuns.push first cat runs).toList = runs.toList ++ opened first cat := by
  cases cat with
  | none => exact (List.append_nil _).symm
  | some cat => exact Array.toList_push

theorem toList_readRuns (cs : List Char) (first : Nat) (cat : Option Category) (len : Nat)
    (runs : Array (Nat × Category)) :
    (readRuns cs first cat len runs).toList = runs.toList ++ runsFrom cs first cat len := by
  induction cs generalizing first cat len runs with
  | nil => exact toList_push first cat runs
  | cons c cs ih =>
    rw [readRuns, runsFrom]
    split
    · exact ih first cat _ runs
    · rw [ih, toList_push, List.append_assoc]

/-! ### The run of a character -/

/-- The search ends at a run that has the code point. -/
theorem exists_search {runs : Array (Nat × Category)} {n : Nat} (fuel lo hi : Nat) (hlo : lo < hi)
    (hhi : hi ≤ runs.size) (hfuel : hi ≤ lo + fuel) (hfirst : ∀ r, runs[lo]? = some r → r.1 ≤ n)
    (hnext : ∀ r, runs[hi]? = some r → n < r.1) :
    ∃ i r, runs[i]? = some r ∧ r.1 ≤ n ∧ (∀ r', runs[i + 1]? = some r' → n < r'.1) ∧
      search runs n fuel lo hi = r.2 := by
  induction fuel generalizing lo hi with
  | zero => omega
  | succ fuel ih =>
    rw [search]
    split
    · rename_i hlast
      obtain rfl : hi = lo + 1 := by omega
      have hrun : runs[lo]? = some runs[lo] := Array.getElem?_eq_getElem (by omega)
      exact ⟨lo, runs[lo], hrun, hfirst _ hrun, hnext, by rw [hrun]; rfl⟩
    · rename_i hmany
      have hmid : runs[(lo + hi) / 2]? = some runs[(lo + hi) / 2] :=
        Array.getElem?_eq_getElem (by omega)
      simp only [hmid]
      split
      · rename_i hle
        refine ih ((lo + hi) / 2) hi (by omega) hhi (by omega) (fun r hr => ?_) hnext
        obtain rfl := Option.some.inj (hmid.symm.trans hr)
        exact hle
      · rename_i hgt
        refine ih lo ((lo + hi) / 2) (by omega) (by omega) (by omega) hfirst fun r hr => ?_
        obtain rfl := Option.some.inj (hmid.symm.trans hr)
        exact Nat.lt_of_not_le hgt

/-- The code point behind run `i`. -/
def next (runs : List (Nat × Category)) (i : Nat) : Nat :=
  (runs[i + 1]?.map Prod.fst).getD 0x110000

/-- Whether all runs pass a test of their category, their first code point and the one behind
    them. -/
def passes (test : Category → Nat → Nat → Bool) : List (Nat × Category) → Bool
  | [] => true
  | [(first, cat)] => test cat first 0x110000
  | (first, cat) :: (next, other) :: runs =>
    test cat first next && passes test ((next, other) :: runs)

theorem test_of_passes {test : Category → Nat → Nat → Bool} {runs : List (Nat × Category)}
    (h : passes test runs = true) {i : Nat} {r : Nat × Category} (hr : runs[i]? = some r) :
    test r.2 r.1 (next runs i) = true := by
  induction runs generalizing i with
  | nil => simp at hr
  | cons run runs ih =>
    cases runs with
    | nil =>
      cases i with
      | zero =>
        obtain rfl := Option.some.inj hr
        exact h
      | succ i => simp at hr
    | cons other runs =>
      rw [passes, Bool.and_eq_true] at h
      cases i with
      | zero =>
        obtain rfl := Option.some.inj hr
        exact h.1
      | succ i => exact ih h.2 hr

/-- Whether the runs begin at code point 0 and pass a test. -/
def allPass (test : Category → Nat → Nat → Bool) (runs : List (Nat × Category)) : Bool :=
  (runs.head?.map Prod.fst == some 0) && passes test runs

theorem exists_test_of_allPass {test : Category → Nat → Nat → Bool}
    {runs : Array (Nat × Category)} (h : allPass test runs.toList = true) (c : Char) :
    ∃ first next, first ≤ c.toNat ∧ c.toNat < next ∧
      test (search runs c.toNat (runs.size + 1) 0 runs.size) first next = true := by
  rw [allPass, Bool.and_eq_true, beq_iff_eq] at h
  obtain ⟨hhead, hpasses⟩ := h
  rw [List.head?_eq_getElem?, Array.getElem?_toList, Option.map_eq_some_iff] at hhead
  obtain ⟨r₀, hr₀, hzero⟩ := hhead
  obtain ⟨hsize, -⟩ := Array.getElem?_eq_some_iff.1 hr₀
  have hlast : runs[runs.size]? = none := Array.getElem?_eq_none (Nat.le_refl _)
  obtain ⟨i, r, hr, hle, hnext, hsearch⟩ : ∃ i r, runs[i]? = some r ∧ r.1 ≤ c.toNat ∧
      (∀ r', runs[i + 1]? = some r' → c.toNat < r'.1) ∧
      search runs c.toNat (runs.size + 1) 0 runs.size = r.2 := by
    refine exists_search (runs.size + 1) 0 runs.size hsize (Nat.le_refl _) (by omega)
      (fun r hr => ?_) fun r hr => ?_
    · obtain rfl := Option.some.inj (hr₀.symm.trans hr)
      exact hzero ▸ Nat.zero_le _
    · rw [hlast] at hr
      contradiction
  rw [← Array.getElem?_toList] at hr
  refine ⟨r.1, next runs.toList i, hle, ?_, hsearch ▸ test_of_passes hpasses hr⟩
  rw [next, Array.getElem?_toList]
  cases hrun : runs[i + 1]? with
  | none =>
    have hvalid : c.toNat < 0xD800 ∨ 0xDFFF < c.toNat ∧ c.toNat < 0x110000 := c.valid
    simp only [Option.map_none, Option.getD_none]
    omega
  | some r' => exact hnext r' hrun

/-- A test that all runs pass holds of the category of a character and a range around it. -/
theorem exists_test {test : Category → Nat → Nat → Bool}
    (h : allPass test (runsFrom (runText.flatMap String.toList) 0 none 0) = true) (c : Char) :
    ∃ first next, first ≤ c.toNat ∧ c.toNat < next ∧ test (Category.of c) first next = true := by
  have hruns : runs.toList = runsFrom (runText.flatMap String.toList) 0 none 0 := by
    rw [runs, toList_readRuns]
    exact List.nil_append _
  rw [← hruns] at h
  exact exists_test_of_allPass h c

/-! ### Lines of characters -/

/-- `P` holds of the characters of all lines, one after the other. -/
def OfLines (P : List Char → Prop) (lines : List String) : Prop :=
  P (lines.flatMap String.toList)

theorem OfLines.nil {P : List Char → Prop} (h : P []) : OfLines P [] :=
  h

theorem OfLines.cons {P : List Char → Prop} {line : String} {cs : List Char} {lines : List String}
    (hline : line.toList = cs) (h : OfLines (fun more => P (cs ++ more)) lines) :
    OfLines P (line :: lines) := by
  rw [OfLines, List.flatMap_cons, hline]
  exact h

end Category

end SyntaxHue
