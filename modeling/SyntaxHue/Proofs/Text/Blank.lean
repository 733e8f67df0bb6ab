import SyntaxHue.Text.Blank
import Mathlib.Data.List.Basic

/-!
# Words between white space

All that is needed of splitting at white space follows from one equation: what stands before a
blank and what stands behind it are split apart. Words that are joined by spaces are split again.
-/

namespace SyntaxHue

/-- Words without white space, none of them empty. -/
def AreWords (words : List (List Char)) : Prop :=
  ∀ word ∈ words, word ≠ [] ∧ ∀ c ∈ word, isBlank c = false

theorem splitBlanks_go_append {c : Char} (hc : isBlank c = true) (cs rest word : List Char) :
    splitBlanks.go (cs ++ c :: rest) word = splitBlanks.go cs word ++ splitBlanks.go rest [] := by
  induction cs generalizing word with
  | nil =>
    rw [List.nil_append, splitBlanks.go, splitBlanks.go, if_pos hc]
    split
    · rfl
    · rfl
  | cons other cs ih =>
    rw [List.cons_append, splitBlanks.go, splitBlanks.go, ih, ih]
    split
    · split
      · rfl
      · rfl
    · rfl

/-- A blank splits. -/
theorem splitBlanks_append {c : Char} (hc : isBlank c = true) (cs rest : List Char) :
    splitBlanks (cs ++ c :: rest) = splitBlanks cs ++ splitBlanks rest :=
  splitBlanks_go_append hc cs rest []

theorem splitBlanks_go_of_forall {cs : List Char} (h : ∀ c ∈ cs, isBlank c = false)
    (word : List Char) :
    splitBlanks.go cs word = if (cs.reverse ++ word).isEmpty then [] else [word.reverse ++ cs] := by
  induction cs generalizing word with
  | nil => rw [splitBlanks.go, List.reverse_nil, List.nil_append, List.append_nil]
  | cons c cs ih =>
    rw [List.forall_mem_cons] at h
    have hc : ¬ isBlank c = true := Bool.eq_false_iff.1 h.1
    rw [splitBlanks.go, if_neg hc, ih h.2]
    simp

/-- A word is not split. -/
theorem splitBlanks_of_word {word : List Char} (hne : word ≠ [])
    (h : ∀ c ∈ word, isBlank c = false) : splitBlanks word = [word] := by
  rw [splitBlanks, splitBlanks_go_of_forall h]
  simp [hne]

/-- Words that are joined by spaces are found again. -/
theorem splitBlanks_intercalate {words : List (List Char)} (h : AreWords words) :
    splitBlanks ([' '].intercalate words) = words := by
  induction words with
  | nil => rfl
  | cons word rest ih =>
    rw [AreWords, List.forall_mem_cons] at h
    obtain ⟨⟨hne, hword⟩, hrest⟩ := h
    cases rest with
    | nil => rw [List.intercalate_singleton, splitBlanks_of_word hne hword]
    | cons next rest =>
      have hblank : isBlank ' ' = true := by decide
      rw [List.intercalate_cons_cons, List.append_assoc, List.singleton_append,
        splitBlanks_append hblank, ih hrest, splitBlanks_of_word hne hword]
      rfl

theorem areWords_go_nil {word : List Char} (h : ∀ c ∈ word, isBlank c = false) :
    AreWords (splitBlanks.go [] word) := by
  rw [splitBlanks.go]
  split
  · exact fun _ hmem => absurd hmem List.not_mem_nil
  · rename_i hne
    refine List.forall_mem_singleton.2 ⟨fun hnil => ?_, fun c hc => h c (List.mem_reverse.1 hc)⟩
    exact hne (List.isEmpty_iff.2 (List.reverse_eq_nil_iff.1 hnil))

theorem areWords_go {cs word : List Char} (h : ∀ c ∈ word, isBlank c = false) :
    AreWords (splitBlanks.go cs word) := by
  induction cs generalizing word with
  | nil => exact areWords_go_nil h
  | cons c cs ih =>
    by_cases hc : isBlank c = true
    · have hsplit := splitBlanks_go_append hc [] cs word
      rw [List.nil_append] at hsplit
      rw [hsplit]
      exact List.forall_mem_append.2
        ⟨areWords_go_nil h, ih fun _ hmem => absurd hmem List.not_mem_nil⟩
    · rw [splitBlanks.go, if_neg hc]
      exact ih (List.forall_mem_cons.2 ⟨Bool.eq_false_iff.2 hc, h⟩)

/-- What a text is split into are words. -/
theorem areWords_splitBlanks (cs : List Char) : AreWords (splitBlanks cs) :=
  areWords_go fun _ hc => absurd hc List.not_mem_nil

end SyntaxHue
