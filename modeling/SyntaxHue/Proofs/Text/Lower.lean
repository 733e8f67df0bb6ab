import SyntaxHue.Text.LowerCase
import SyntaxHue.Proofs.Text.Word

/-!
# Words in lower case

The lower-case form of a word is a word, and it is its own lower-case form. Both come from the
rules: each of them leads to ranges of word characters, and what it leads to is moved by no rule.
-/

namespace SyntaxHue

/-! ### Rules of lower case -/

namespace CaseRow

/-- Whether no character that `row` leads to is moved by `other`. -/
def misses (row other : CaseRow) : Bool :=
  Nat.blt (row.apply row.last) other.first || Nat.blt other.last (row.apply row.first) ||
    -- the two take turns
    (Nat.beq other.stride 2 && (Nat.beq row.stride 2 || Nat.beq row.first row.last) &&
      Nat.beq ((row.apply row.first + other.first) % 2) 1)

variable {row other : CaseRow} {n : Nat}

theorem covers_iff : row.covers n = true ↔
    row.first ≤ n ∧ n ≤ row.last ∧ (n - row.first) % row.stride = 0 := by
  rw [covers, Bool.and_eq_true, Bool.and_eq_true, decide_eq_true_eq, decide_eq_true_eq,
    beq_iff_eq, and_assoc]

theorem covers_apply_of_misses (hrow : 0 ≤ (row.first : Int) + row.shift)
    (hn : row.covers n = true) (h : row.misses other = true) :
    other.covers (row.apply n) = false := by
  rw [covers_iff] at hn
  rw [misses] at h
  simp only [Bool.or_eq_true, Bool.and_eq_true, Nat.blt_eq, Nat.beq_eq] at h
  by_contra hother
  rw [Bool.not_eq_false, covers_iff] at hother
  obtain ⟨hfirst, hlast, hstride⟩ := hn
  obtain ⟨hfirst', hlast', hstride'⟩ := hother
  simp only [apply] at h hfirst' hlast' hstride'
  rcases h with (hbefore | hbehind) | ⟨⟨htwo, hturn⟩, hodd⟩
  · omega
  · omega
  · rw [htwo] at hstride'
    rcases hturn with htwo' | hone
    · rw [htwo'] at hstride
      omega
    · omega

end CaseRow

/-- The capital letter `İ`, as a rule that moves nothing else. -/
def dottedRow : CaseRow :=
  ⟨0x130, 0x130, 1, 0⟩

/-- Whether a rule leads to word characters, which no rule moves. -/
def CaseRow.settles (row : CaseRow) : Bool :=
  decide (0 ≤ (row.first : Int) + row.shift) &&
    (wordRanges.any fun r =>
      Nat.ble r.1 (row.apply row.first) && Nat.ble (row.apply row.last) r.2) &&
    (dottedRow :: lowerRows.toList).all row.misses

theorem settles_of_mem {row : CaseRow} (h : row ∈ lowerRows.toList) : row.settles = true := by
  have hall : lowerRows.toList.all CaseRow.settles = true := by decide +kernel
  exact List.all_eq_true.1 hall row h

/-! ### Characters that lower case leaves alone -/

/-- Lower case leaves `c` as it is. -/
def IsSettled (c : Char) : Prop :=
  ∀ row ∈ dottedRow :: lowerRows.toList, row.covers c.toNat = false

instance (c : Char) : Decidable (IsSettled c) :=
  inferInstanceAs (Decidable (∀ row ∈ dottedRow :: lowerRows.toList, row.covers c.toNat = false))

/-- One rule is for the letters A to Z, and all others are for characters behind them. -/
theorem ascii_row {row : CaseRow} (h : row ∈ dottedRow :: lowerRows.toList)
    (hrow : row.first < 128) : row.first = 65 ∧ row.last = 90 := by
  have hrows : ∀ row ∈ dottedRow :: lowerRows.toList, row.first < 128 →
      row.first = 65 ∧ row.last = 90 := by decide +kernel
  exact hrows row h hrow

theorem isSettled_of_ascii {c : Char} (hascii : c.toNat < 128)
    (hsmall : ¬ (65 ≤ c.toNat ∧ c.toNat ≤ 90)) : IsSettled c := by
  intro row hrow
  by_contra hcovers
  rw [Bool.not_eq_false, CaseRow.covers_iff] at hcovers
  obtain ⟨hfirst, hlast⟩ := ascii_row hrow (by omega)
  omega

theorem toLower_eq_self {c : Char} (h : ¬ (65 ≤ c.toNat ∧ c.toNat ≤ 90)) : c.toLower = c :=
  dif_neg h

theorem lowerChar_of_isSettled {c : Char} (h : IsSettled c) : lowerChar c = [c] := by
  rw [lowerChar]
  split
  · have hsmall : ¬ (65 ≤ c.toNat ∧ c.toNat ≤ 90) := by
      have hrow : (⟨65, 90, 1, 32⟩ : CaseRow) ∈ dottedRow :: lowerRows.toList :=
        List.mem_cons_of_mem _ List.mem_cons_self
      have hcovers := h _ hrow
      rw [← Bool.not_eq_true, CaseRow.covers_iff] at hcovers
      dsimp only at hcovers
      rw [Nat.mod_one] at hcovers
      omega
    rw [toLower_eq_self hsmall]
  · split
    · rename_i hdotted
      have hcovers := h dottedRow List.mem_cons_self
      rw [hdotted] at hcovers
      contradiction
    · have hnone : lowerRows.find? (·.covers c.toNat) = none := by
        rw [Array.find?_eq_none]
        intro row hrow hcovers
        have hleft := h row (List.mem_cons_of_mem _ (Array.mem_toList_iff.2 hrow))
        rw [hleft] at hcovers
        contradiction
      rw [hnone]

/-- What a rule leads to belongs to words and is not moved again. -/
theorem exists_of_covers {row : CaseRow} {n : Nat} (hrow : row ∈ lowerRows.toList)
    (hn : row.covers n = true) :
    isWord (Char.ofNat (row.apply n)) = true ∧ IsSettled (Char.ofNat (row.apply n)) := by
  have hsettles := settles_of_mem hrow
  rw [CaseRow.settles, Bool.and_eq_true, Bool.and_eq_true, decide_eq_true_eq] at hsettles
  obtain ⟨⟨hshift, hranges⟩, hmisses⟩ := hsettles
  obtain ⟨r, hr, hbounds⟩ := List.any_eq_true.1 hranges
  rw [Bool.and_eq_true, Nat.ble_eq, Nat.ble_eq] at hbounds
  obtain ⟨hfirst, hlast, -⟩ := CaseRow.covers_iff.1 hn
  have hin : r.1 ≤ row.apply n ∧ row.apply n ≤ r.2 := by
    simp only [CaseRow.apply] at hbounds ⊢
    omega
  have hvalid : (row.apply n).isValidChar := by
    have hranges : ∀ r ∈ wordRanges, r.2 < 0xD800 ∨ 0xDFFF < r.1 ∧ r.2 < 0x110000 := by decide
    have := hranges r hr
    rw [Nat.isValidChar]
    omega
  have htoNat : (Char.ofNat (row.apply n)).toNat = row.apply n := by
    rw [Char.ofNat, dif_pos hvalid]
    rfl
  constructor
  · refine isWord_of_inRanges (inRanges_iff.2 ⟨r, hr, ?_⟩)
    rw [htoNat]
    exact hin
  · intro other hother
    rw [htoNat]
    exact CaseRow.covers_apply_of_misses hshift hn (List.all_eq_true.1 hmisses other hother)

/-- The ways in which a character gets its lower-case form. -/
theorem lowerChar_cases (c : Char) :
    c.toNat < 128 ∧ lowerChar c = [c.toLower] ∨ c = '\u0130' ∧ lowerChar c = ['i', '\u0307'] ∨
      (∃ row ∈ lowerRows.toList, row.covers c.toNat = true ∧
        lowerChar c = [Char.ofNat (row.apply c.toNat)]) ∨
      IsSettled c ∧ lowerChar c = [c] := by
  by_cases hascii : c.toNat < 128
  · exact .inl ⟨hascii, by rw [lowerChar, if_pos hascii]⟩
  by_cases hdotted : c = '\u0130'
  · exact .inr (.inl ⟨hdotted, by rw [lowerChar, if_neg hascii, if_pos hdotted]⟩)
  cases hrow : lowerRows.find? (·.covers c.toNat) with
  | some row =>
    have hcovers := Array.find?_some hrow
    have hmem := Array.mem_toList_iff.2 (Array.mem_of_find?_eq_some hrow)
    refine .inr (.inr (.inl ⟨row, hmem, hcovers, ?_⟩))
    rw [lowerChar, if_neg hascii, if_neg hdotted, hrow]
  | none =>
    refine .inr (.inr (.inr ⟨fun row hrow' => ?_, ?_⟩))
    · rcases List.mem_cons.1 hrow' with rfl | hmem
      · by_contra hcovers
        rw [Bool.not_eq_false, CaseRow.covers_iff] at hcovers
        have : c.toNat = '\u0130'.toNat := by
          have hfirst : 0x130 ≤ c.toNat := hcovers.1
          have hlast : c.toNat ≤ 0x130 := hcovers.2.1
          exact Nat.le_antisymm hlast hfirst
        exact hdotted (Char.toNat_inj.1 this)
      · have hnone := Array.find?_eq_none.1 hrow row (Array.mem_toList_iff.1 hmem)
        rwa [Bool.not_eq_true] at hnone
    · rw [lowerChar, if_neg hascii, if_neg hdotted, hrow]

/-! ### Texts -/

/-- `d` is part of a lower-case form of `c`. -/
def Lowers (c d : Char) : Prop :=
  d ∈ lowerChar c ∨ c = '\u03A3' ∧ (d = '\u03C2' ∨ d = '\u03C3')

theorem toLower_ascii {c : Char} (h : c.toNat < 128) :
    IsSettled c.toLower ∧ (isWord c = true → isWord c.toLower = true) := by
  obtain ⟨hascii, hsmall, hword⟩ : c.toLower.toNat < 128 ∧
      ¬ (65 ≤ c.toLower.toNat ∧ c.toLower.toNat ≤ 90) ∧
      (isWord c = true → isWord c.toLower = true) := by
    apply forall_ascii c _ h
    decide +kernel
  exact ⟨isSettled_of_ascii hascii hsmall, hword⟩

/-- The ways in which a character comes into a lower-case form. -/
theorem Lowers.cases {c d : Char} (h : Lowers c d) :
    c.toNat < 128 ∧ d = c.toLower ∨ d ∈ ['i', '\u0307', '\u03C2', '\u03C3'] ∨
      (∃ row ∈ lowerRows.toList, row.covers c.toNat = true ∧
        d = Char.ofNat (row.apply c.toNat)) ∨
      IsSettled c ∧ d = c := by
  rcases h with hd | ⟨-, rfl | rfl⟩
  · rcases lowerChar_cases c with ⟨hascii, hlower⟩ | ⟨-, hlower⟩ | ⟨row, hrow, hcovers, hlower⟩ |
      ⟨hc, hlower⟩
    · rw [hlower, List.mem_singleton] at hd
      exact .inl ⟨hascii, hd⟩
    · rw [hlower] at hd
      exact .inr (.inl (List.mem_append_left _ hd))
    · rw [hlower, List.mem_singleton] at hd
      exact .inr (.inr (.inl ⟨row, hrow, hcovers, hd⟩))
    · rw [hlower, List.mem_singleton] at hd
      exact .inr (.inr (.inr ⟨hc, hd⟩))
  · exact .inr (.inl (by simp))
  · exact .inr (.inl (by simp))

/-- The small letters of `İ` and `Σ` are settled word characters. -/
theorem isSettled_special {d : Char} (h : d ∈ ['i', '\u0307', '\u03C2', '\u03C3']) :
    IsSettled d ∧ isWord d = true := by
  simp only [List.mem_cons, List.not_mem_nil, or_false] at h
  rcases h with rfl | rfl | rfl | rfl <;>
    exact ⟨by decide +kernel, isWord_of_inRanges (by decide)⟩

theorem Lowers.isSettled {c d : Char} (h : Lowers c d) : IsSettled d := by
  rcases h.cases with ⟨hascii, rfl⟩ | hspecial | ⟨row, hrow, hcovers, rfl⟩ | ⟨hc, rfl⟩
  · exact (toLower_ascii hascii).1
  · exact (isSettled_special hspecial).1
  · exact (exists_of_covers hrow hcovers).2
  · exact hc

theorem Lowers.isWord {c d : Char} (h : Lowers c d) (hc : SyntaxHue.isWord c = true) :
    SyntaxHue.isWord d = true := by
  rcases h.cases with ⟨hascii, rfl⟩ | hspecial | ⟨row, hrow, hcovers, rfl⟩ | ⟨-, rfl⟩
  · exact (toLower_ascii hascii).2 hc
  · exact (isSettled_special hspecial).2
  · exact (exists_of_covers hrow hcovers).1
  · exact hc

theorem lowerChar_ne_nil (c : Char) : lowerChar c ≠ [] := by
  rcases lowerChar_cases c with ⟨-, h⟩ | ⟨-, h⟩ | ⟨row, -, -, h⟩ | ⟨-, h⟩ <;> rw [h] <;>
    exact List.cons_ne_nil _ _

/-- A character of a text becomes one or more characters. -/
theorem exists_lowerText_go (c : Char) (cs seen : List Char) : ∃ ds, ds ≠ [] ∧
    (∀ d ∈ ds, Lowers c d) ∧ lowerText.go (c :: cs) seen = ds ++ lowerText.go cs (c :: seen) := by
  rw [lowerText.go]
  by_cases hsigma : c = '\u03A3'
  · rw [if_pos hsigma]
    split
    · exact ⟨_, List.cons_ne_nil _ _, by simp [Lowers, hsigma], rfl⟩
    · exact ⟨_, List.cons_ne_nil _ _, by simp [Lowers, hsigma], rfl⟩
  · rw [if_neg hsigma]
    exact ⟨_, lowerChar_ne_nil c, fun d hd => .inl hd, rfl⟩

theorem exists_of_mem_lowerText_go {d : Char} {cs seen : List Char}
    (h : d ∈ lowerText.go cs seen) : ∃ c ∈ cs, Lowers c d := by
  induction cs generalizing seen with
  | nil => exact absurd h List.not_mem_nil
  | cons c cs ih =>
    obtain ⟨ds, -, hds, hgo⟩ := exists_lowerText_go c cs seen
    rw [hgo, List.mem_append] at h
    rcases h with hd | hd
    · exact ⟨c, List.mem_cons_self, hds d hd⟩
    · obtain ⟨other, hother, hlowers⟩ := ih hd
      exact ⟨other, List.mem_cons_of_mem c hother, hlowers⟩

/-- Every character of a lower-case form comes from one of the text. -/
theorem exists_of_mem_lowerText {d : Char} {cs : List Char} (h : d ∈ lowerText cs) :
    ∃ c ∈ cs, Lowers c d :=
  exists_of_mem_lowerText_go h

theorem lowerText_go_eq_self {cs : List Char} (h : ∀ c ∈ cs, IsSettled c) (seen : List Char) :
    lowerText.go cs seen = cs := by
  induction cs generalizing seen with
  | nil => rfl
  | cons c cs ih =>
    rw [List.forall_mem_cons] at h
    have hsigma : c ≠ '\u03A3' := by
      rintro rfl
      exact absurd h.1 (by decide +kernel)
    rw [lowerText.go, if_neg hsigma, lowerChar_of_isSettled h.1, ih h.2]
    rfl

/-- Lower case leaves a text of settled characters as it is. -/
theorem lowerText_eq_self {cs : List Char} (h : ∀ c ∈ cs, IsSettled c) : lowerText cs = cs :=
  lowerText_go_eq_self h []

theorem isSettled_of_mem_lowerText {d : Char} {cs : List Char} (h : d ∈ lowerText cs) :
    IsSettled d := by
  obtain ⟨c, -, hlowers⟩ := exists_of_mem_lowerText h
  exact hlowers.isSettled

/-- A text in lower case is its own lower-case form. -/
theorem lowerText_lowerText (cs : List Char) : lowerText (lowerText cs) = lowerText cs :=
  lowerText_eq_self fun _ h => isSettled_of_mem_lowerText h

theorem exists_getLast_lowerText_go {c : Char} (cs seen : List Char) :
    ∃ front d, lowerText.go (cs ++ [c]) seen = front ++ [d] ∧ Lowers c d := by
  induction cs generalizing seen with
  | nil =>
    obtain ⟨ds, hne, hds, hgo⟩ := exists_lowerText_go c [] seen
    obtain ⟨front, d, rfl⟩ := (List.eq_nil_or_concat' ds).resolve_left hne
    refine ⟨front, d, ?_, hds d (by simp)⟩
    rw [List.nil_append, hgo, lowerText.go, List.append_nil]
  | cons other cs ih =>
    obtain ⟨ds, -, -, hgo⟩ := exists_lowerText_go other (cs ++ [c]) seen
    obtain ⟨front, d, hd, hlowers⟩ := ih (other :: seen)
    refine ⟨ds ++ front, d, ?_, hlowers⟩
    rw [List.cons_append, hgo, hd, List.append_assoc]

/-- The last character of a lower-case form comes from the last of the text. -/
theorem exists_getLast_lowerText (cs : List Char) (c : Char) :
    ∃ front d, lowerText (cs ++ [c]) = front ++ [d] ∧ Lowers c d :=
  exists_getLast_lowerText_go cs []

end SyntaxHue
