import SyntaxHue.Text.CaseFold
import SyntaxHue.Proofs.Text.Lower

/-!
# Letters in any case

Besides its two cases a letter from A to Z has at most one variant, the long s or the Kelvin sign;
characters in front of the letters have none but themselves. Both come from the rules of case
folding, of which one is for the letters A to Z and two lead to letters from elsewhere.
-/

namespace SyntaxHue

/-- Two words are the same but for the case of their letters. -/
def EqAnyCase (u v : List Char) : Prop :=
  u.map foldCase = v.map foldCase

instance (u v : List Char) : Decidable (EqAnyCase u v) :=
  inferInstanceAs (Decidable (_ = _))

theorem EqAnyCase.length_eq {u v : List Char} (h : EqAnyCase u v) : u.length = v.length := by
  have hlength := congrArg List.length h
  rwa [List.length_map, List.length_map] at hlength

/-- What goes on behind a word is not the same word. -/
theorem EqAnyCase.append_iff {u v w : List Char} (h : EqAnyCase u v) :
    EqAnyCase (u ++ w) v ↔ w = [] := by
  constructor
  · intro happend
    have hlength := happend.length_eq
    rw [List.length_append, h.length_eq] at hlength
    exact List.length_eq_zero_iff.1 (by omega)
  · rintro rfl
    rwa [List.append_nil]

namespace CaseRow

/-- What is needed of a rule of case folding: it leads from characters to characters, and to letters
    only from capital letters, the long s and the Kelvin sign. -/
def Folds (row : CaseRow) : Prop :=
  (row.last < 0xD800 ∨ 0xDFFF < row.first ∧ row.last < 0x110000) ∧
    ((row.last : Int) + row.shift < 0xD800 ∨
      0xDFFF < (row.first : Int) + row.shift ∧ (row.last : Int) + row.shift < 0x110000) ∧
    65 ≤ row.first ∧ 97 ≤ (row.first : Int) + row.shift ∧
    (row.first < 128 → row.last ≤ 90 ∧ row.shift = 32) ∧
    ((row.first : Int) + row.shift ≤ 122 →
      row.last ≤ 90 ∨ row.first = row.last ∧ (row.first = 0x17F ∨ row.first = 0x212A))

instance (row : CaseRow) : Decidable row.Folds :=
  inferInstanceAs (Decidable (_ ∧ _))

end CaseRow

theorem folds_of_mem {row : CaseRow} (h : row ∈ foldRows.toList) : row.Folds := by
  have hall : ∀ row ∈ foldRows.toList, row.Folds := by decide +kernel
  exact hall row h

/-- Folding takes the code point `n` to `folded`. -/
structure FoldsTo (n folded : Nat) : Prop where
  valid : n.isValidChar
  folded_valid : folded.isValidChar
  ge : 65 ≤ n
  folded_ge : 97 ≤ folded
  capital : n < 128 → n ≤ 90 ∧ folded = n + 32
  letter : folded ≤ 122 → n ≤ 90 ∨ n = 0x17F ∨ n = 0x212A

theorem foldsTo_of_covers {row : CaseRow} {n : Nat} (hrow : row ∈ foldRows.toList)
    (hn : row.covers n = true) : FoldsTo n (row.apply n) := by
  obtain ⟨hvalid, hfolded, hge, hfoldedGe, hcapital, hletter⟩ := folds_of_mem hrow
  obtain ⟨hfirst, hlast, -⟩ := CaseRow.covers_iff.1 hn
  have happly : (row.apply n : Int) = n + row.shift := by
    rw [CaseRow.apply]
    omega
  constructor
  · rw [Nat.isValidChar]
    omega
  · rw [Nat.isValidChar]
    omega
  · omega
  · omega
  · omega
  · omega

theorem toNat_ofNat {n : Nat} (h : n.isValidChar) : (Char.ofNat n).toNat = n := by
  rw [Char.ofNat, dif_pos h]
  rfl

/-- What a code point behind ASCII is folded to, which is a letter from A to Z for two of them. -/
theorem foldCode_bounds {n : Nat} (hvalid : n.isValidChar) (hn : 128 ≤ n) :
    (foldCode n).isValidChar ∧ 97 ≤ foldCode n ∧
      (foldCode n ≤ 122 → n = 0x17F ∨ n = 0x212A) := by
  unfold foldCode
  split
  · rename_i row hrow
    have hmem := Array.mem_toList_iff.2 (Array.mem_of_find?_eq_some hrow)
    have hcovers := Array.find?_some hrow
    have hfolds := foldsTo_of_covers hmem hcovers
    refine ⟨hfolds.folded_valid, hfolds.folded_ge, fun hle => ?_⟩
    have hletter := hfolds.letter hle
    omega
  · exact ⟨hvalid, by omega, by omega⟩

/-- What leads to a code point by one of the rules is folded to it. -/
theorem foldsTo_of_source {row : CaseRow} {n folded : Nat} (hrow : row ∈ foldRows.toList)
    (h : row.source? folded = some n) : FoldsTo n folded := by
  rw [CaseRow.source?] at h
  split at h
  · rename_i hcovers
    rw [Bool.and_eq_true, beq_iff_eq] at hcovers
    rw [Option.some.injEq] at h
    rw [h] at hcovers
    have hfolds := foldsTo_of_covers hrow hcovers.1
    rwa [hcovers.2] at hfolds
  · contradiction

/-- A variant of a character that is not ASCII is what the character is folded to, or is folded to
    the same. -/
theorem eq_or_foldsTo_of_mem_caseVariants {a c : Char} (hc : 128 ≤ c.toNat)
    (h : a ∈ caseVariants c) :
    a.toNat = foldCode c.toNat ∨ FoldsTo a.toNat (foldCode c.toNat) := by
  have hvalid : c.toNat.isValidChar := c.valid
  obtain ⟨hfolded, -⟩ := foldCode_bounds hvalid hc
  rw [caseVariants, if_neg (Nat.not_lt.2 hc)] at h
  obtain ⟨n, hn, rfl⟩ := List.mem_map.1 h
  rcases List.mem_cons.1 hn with heq | hn
  · rw [heq]
    exact .inl (toNat_ofNat hfolded)
  · obtain ⟨row, hrow, hsource⟩ := List.mem_filterMap.1 hn
    have hfolds := foldsTo_of_source hrow hsource
    rw [toNat_ofNat hfolds.valid]
    exact .inr hfolds

/-- A character in front of the letters is a variant of itself only. -/
theorem eq_of_mem_caseVariants {a c : Char} (ha : a.toNat < 65) (h : a ∈ caseVariants c) :
    c = a := by
  by_cases hc : c.toNat < 128
  · have hall : (caseVariants c).all (fun a => decide (a.toNat < 65 → c = a)) = true := by
      apply forall_ascii c _ hc
      decide +kernel
    exact of_decide_eq_true (List.all_eq_true.1 hall a h) ha
  · have hc : 128 ≤ c.toNat := by omega
    have hvalid : c.toNat.isValidChar := c.valid
    obtain ⟨-, hge, -⟩ := foldCode_bounds hvalid hc
    rcases eq_or_foldsTo_of_mem_caseVariants hc h with heq | hfolds
    · omega
    · have hcapital := hfolds.ge
      omega

theorem toNat_le_of_isAlpha {c : Char} (h : c.isAlpha = true) : c.toNat ≤ 122 := by
  have hcases : (c.isUpper || c.isLower) = true := h
  rw [Bool.or_eq_true] at hcases
  rcases hcases with hupper | hlower
  · have hbounds : 'A'.val ≤ c.val ∧ c.val ≤ 'Z'.val := of_decide_eq_true hupper
    exact Nat.le_trans (UInt32.le_iff_toNat_le.1 hbounds.2) (by decide)
  · have hbounds : (decide ('a'.val ≤ c.val) && decide (c.val ≤ 'z'.val)) = true := hlower
    rw [Bool.and_eq_true, decide_eq_true_eq, decide_eq_true_eq] at hbounds
    exact UInt32.le_iff_toNat_le.1 hbounds.2

/-- What has a letter as a variant is that letter in another case, or one of two characters that are
    no letters from A to Z. -/
theorem foldCase_eq_of_mem_caseVariants {a c : Char} (ha : a.isAlpha = true)
    (h : a ∈ caseVariants c) :
    foldCase c = foldCase a ∧ (c.isAlpha = true ∨ c = '\u017F' ∨ c = '\u212A') := by
  by_cases hc : c.toNat < 128
  · have hall : (caseVariants c).all (fun a =>
        decide (a.isAlpha = true → foldCase c = foldCase a ∧ c.isAlpha = true)) = true := by
      apply forall_ascii c _ hc
      decide +kernel
    obtain ⟨hfold, hletter⟩ := of_decide_eq_true (List.all_eq_true.1 hall a h) ha
    exact ⟨hfold, .inl hletter⟩
  · have hc : 128 ≤ c.toNat := by omega
    have hvalid : c.toNat.isValidChar := c.valid
    obtain ⟨-, hge, hletter⟩ := foldCode_bounds hvalid hc
    have hle := toNat_le_of_isAlpha ha
    have hcases : a.isAlpha = true → (a.toNat ≤ 90 → foldCase a = Char.ofNat (a.toNat + 32)) ∧
        (97 ≤ a.toNat → foldCase a = a) := by
      apply forall_ascii a _ (by omega)
      decide +kernel
    obtain ⟨hcapital, hsmall⟩ := hcases ha
    have hspecial : foldCode c.toNat ≤ 122 → c = '\u017F' ∨ c = '\u212A' := by
      intro hfolded
      have hlong : '\u017F'.toNat = 0x17F := by decide
      have hkelvin : '\u212A'.toNat = 0x212A := by decide
      rw [← Char.toNat_inj, ← Char.toNat_inj, hlong, hkelvin]
      exact hletter hfolded
    rw [foldCase, if_neg (Nat.not_lt.2 hc)]
    rcases eq_or_foldsTo_of_mem_caseVariants hc h with heq | hfolds
    · refine ⟨?_, .inr (hspecial (by omega))⟩
      rw [hsmall (by omega), ← heq, Char.ofNat_toNat]
    · obtain ⟨hcase, heq⟩ := hfolds.capital (by omega)
      refine ⟨?_, .inr (hspecial (by omega))⟩
      rw [hcapital hcase, heq]

end SyntaxHue
