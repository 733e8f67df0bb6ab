import SyntaxHue.Text.Property
import SyntaxHue.Proofs.Text.Runs

/-!
# Word characters

Which characters belong to words is a matter of their categories, and so of the table. One pass
through it checks both what is needed here: white space belongs to no word, and the ranges in which
the small letters are hold nothing but word characters.
-/

namespace SyntaxHue

theorem inRanges_iff {ranges : List (Nat × Nat)} {c : Char} :
    inRanges ranges c = true ↔ ∃ r ∈ ranges, r.1 ≤ c.toNat ∧ c.toNat ≤ r.2 := by
  simp only [inRanges, List.any_eq_true, Bool.and_eq_true, decide_eq_true_eq]

/-- What holds of the code points below 128 holds of their characters. -/
theorem forall_ascii {P : Char → Prop} (c : Char) (h : ∀ n < 128, P (Char.ofNat n))
    (hc : c.toNat < 128) : P c := by
  have hchar := h c.toNat hc
  rwa [Char.ofNat_toNat] at hchar

/-- Ranges of word characters, among them all to which the rules of lower case move others, but
    for circled letters. -/
def lowerRanges : List (Nat × Nat) :=
  [(97, 122), (216, 246), (248, 705), (768, 884), (886, 887), (890, 893), (931, 1013),
   (1015, 1153), (1155, 1327), (1376, 1416), (4304, 4346), (4348, 4680), (5112, 5117),
   (7296, 7306), (7424, 7957), (7968, 8005), (8016, 8023), (8031, 8061), (8064, 8116),
   (8130, 8132), (8144, 8147), (8160, 8172), (8178, 8180), (8526, 8526), (8544, 8584),
   (11264, 11492), (11499, 11507), (11520, 11557), (11559, 11559), (11565, 11565),
   (42560, 42610), (42623, 42737), (42786, 42888), (42891, 42957), (42960, 42961),
   (42965, 42972), (42994, 43047), (43824, 43866), (43888, 44010), (65345, 65370),
   (66560, 66717), (66776, 66811), (66967, 66977), (66979, 66993), (66995, 67001),
   (67003, 67004), (68800, 68850), (68975, 68997), (71840, 71913), (93760, 93823),
   (125184, 125259)]

/-- Whether no range meets the code points from `first` up to `next`. -/
def apart (ranges : List (Nat × Nat)) (first next : Nat) : Bool :=
  ranges.all fun r => Nat.blt r.2 first || Nat.ble next r.1

theorem not_inRanges_of_apart {ranges : List (Nat × Nat)} {first next : Nat} {c : Char}
    (h : apart ranges first next = true) (hfirst : first ≤ c.toNat) (hnext : c.toNat < next) :
    inRanges ranges c = false := by
  by_contra hin
  rw [Bool.not_eq_false, inRanges_iff] at hin
  obtain ⟨r, hr, hc⟩ := hin
  have hapart := List.all_eq_true.1 h r hr
  rw [Bool.or_eq_true, Nat.blt_eq, Nat.ble_eq] at hapart
  omega

/-- Whether a run of word characters is apart from all white space, or another run from the
    ranges of word characters. -/
def wordTest (cat : Category) (first next : Nat) : Bool :=
  if CharProperty.word.categories.contains cat then apart blankRanges first next
  else apart lowerRanges first next

theorem allPass_wordTest : Category.OfLines
    (fun cs => Category.allPass wordTest (Category.runsFrom cs 0 none 0) = true)
    Category.runText := by
  unfold Category.runText
  -- the characters of the lines, each line by its literal, and then one run through all of them
  repeat refine Category.OfLines.cons String.toList_ofList ?_
  refine Category.OfLines.nil ?_
  decide +kernel

theorem hasCategory_of_inRanges {c : Char} (h : inRanges lowerRanges c = true) :
    hasCategory CharProperty.word.categories c = true := by
  obtain ⟨first, next, hfirst, hnext, htest⟩ := Category.exists_test allPass_wordTest c
  by_contra hcat
  rw [hasCategory] at hcat
  rw [wordTest, if_neg hcat] at htest
  rw [not_inRanges_of_apart htest hfirst hnext] at h
  contradiction

theorem isBlank_of_hasCategory {c : Char}
    (h : hasCategory CharProperty.word.categories c = true) : isBlank c = false := by
  obtain ⟨first, next, hfirst, hnext, htest⟩ := Category.exists_test allPass_wordTest c
  rw [hasCategory] at h
  rw [wordTest, if_pos h] at htest
  exact not_inRanges_of_apart htest hfirst hnext

/-! ### Word characters -/

/-- Characters of words that are no letters by their category, or such letters. -/
def wordRanges : List (Nat × Nat) :=
  lowerRanges ++ symbolLetterRanges

theorem isWord_of_inRanges {c : Char} (h : inRanges wordRanges c = true) : isWord c = true := by
  obtain ⟨r, hr, hc⟩ := inRanges_iff.1 h
  rw [isWord]
  split
  · rename_i hascii
    have hletters : ∀ r ∈ wordRanges, r.1 < 128 → r = (97, 122) := by decide
    obtain rfl := hletters r hr (by omega)
    have hlower : c.isLower = true :=
      Bool.and_eq_true_iff.2 ⟨decide_eq_true hc.1, decide_eq_true hc.2⟩
    have hletter : c.isAlpha = true := Bool.or_eq_true_iff.2 (.inr hlower)
    have halphanum : c.isAlphanum = true := Bool.or_eq_true_iff.2 (.inl hletter)
    rw [halphanum, Bool.true_or]
  · rw [CharProperty.holds, Bool.and_eq_true]
    refine ⟨?_, rfl⟩
    rw [Bool.or_eq_true]
    rcases List.mem_append.1 hr with hlower | hsymbol
    · exact .inl (hasCategory_of_inRanges (inRanges_iff.2 ⟨r, hlower, hc⟩))
    · exact .inr (inRanges_iff.2 ⟨r, List.mem_cons_of_mem _ hsymbol, hc⟩)

/-- White space belongs to no word. -/
theorem isBlank_of_isWord {c : Char} (h : isWord c = true) : isBlank c = false := by
  rw [isWord] at h
  by_contra hblank
  rw [Bool.not_eq_false] at hblank
  obtain ⟨r, hr, hc⟩ := inRanges_iff.1 hblank
  split at h
  · rename_i hascii
    have hword : isBlank c = true → (c.isAlphanum || decide (c = '_')) = false := by
      apply forall_ascii c _ hascii
      decide
    rw [hword hblank] at h
    contradiction
  · rw [CharProperty.holds, Bool.and_eq_true, Bool.or_eq_true] at h
    rcases h.1 with hcat | halso
    · rw [isBlank_of_hasCategory hcat] at hblank
      contradiction
    · obtain ⟨q, hq, hc'⟩ := inRanges_iff.1 halso
      have hapart : ∀ r ∈ blankRanges, ∀ q ∈ CharProperty.word.also, r.2 < q.1 ∨ q.2 < r.1 := by
        decide
      have := hapart r hr q hq
      omega

end SyntaxHue
