import SyntaxHue.Language.Builtin
import SyntaxHue.Proofs.Tokenizer.Stop

/-!
# The built-in languages are safe

The engine bounds neither the depth of a tokenization nor what a pattern may report, so that it
ends without a fault is a property of the patterns. For the built-in ones it can be read off their
outlines: in every pattern with look-behind the first group leads the match, and where grammars
form a cycle a text gets shorter on the way. From markup over a document type to its internal
subset and back, the subset leaves out the bracket before it; a template string begins with a
grave accent and an interpolation with a dollar sign, so neither is all of the other.
-/

namespace SyntaxHue

namespace Regex

/-- The search from `here` on spends its budget, or has too many branches. -/
def GivesUp (r : Regex) (here : Cursor) : Prop :=
  ∃ e, r.matcher = .backtracking e ∧
    Backtracking.search ⟨here.offset, byteLength here.text⟩ (Backtracking.steps failureLimit e.size)
      e failureLimit here.after here = .gaveUp

theorem search_of_givesUp {r : Regex} {here : Cursor} (h : r.GivesUp here) :
    r.search here = .ok none := by
  obtain ⟨e, hmatcher, hsearch⟩ := h
  simp only [search, searchWithin, hmatcher, here.offset_add_byteLength, hsearch]

end Regex

/-- A search that gives up has found nothing. -/
theorem Pattern.find_of_givesUp {p : Pattern} {here : Cursor} (h : p.regex.GivesUp here) :
    p.find here = .ok none := by
  rw [find, Regex.search_of_givesUp h]

namespace Store

open Tokenizer

/-- Tokenizing with the grammars of a store ends and does not fail. -/
structure Safe (s : Store) : Prop where
  /-- Every text is tokenized in every language. -/
  tokenized : ∀ language grammar, s.get? language = some grammar → ∀ text,
    ∃ nodes, s.tokenizeLanguage text language = .ok (some nodes)
  /-- What look-behind cuts off is always the front of the match. -/
  cutsFront : ∀ grammar, ∀ rule ∈ (s.effectiveRules grammar).entries, ∀ p ∈ rule.2,
    p.lookbehind = true → p.CutsFront
  /-- Around a cycle of grammars the text gets shorter. -/
  shorter : ∀ grammar text text',
    Relation.TransGen s.HandsOn (grammar, text) (grammar, text') →
      byteLength text' < byteLength text
  /-- No scan of a level runs out of steps: more of them come to the same. -/
  enough : ∀ depth grammar text, ∀ c ∈ (levelAt s depth grammar text).rules, ∀ i left f n,
    (levelAt s depth grammar text).At text left f → byteLength text + 2 ≤ n →
      (levelAt s depth grammar text).scan c ((levelAt s depth grammar text).passes i) n [] f =
        (levelAt s depth grammar text).scan c ((levelAt s depth grammar text).passes i)
          (byteLength text + 2) [] f
  /-- A search that gives up counts as one that finds nothing. -/
  givesUp : ∀ grammar, ∀ rule ∈ (s.effectiveRules grammar).entries, ∀ p ∈ rule.2, ∀ here,
    p.regex.GivesUp here → p.find here = .ok none

theorem safe_of_wellBuilt {s : Store} {a b : Char} (h : s.wellBuilt a b = true) : s.Safe where
  tokenized := by
    intro language grammar hlanguage text
    obtain ⟨nodes, hnodes⟩ :=
      exists_tokenize (tame_of_wellBuilt h) (wellFounded_handsOn h) text grammar
    refine ⟨nodes, ?_⟩
    rw [tokenizeLanguage, hlanguage]
    simp only [hnodes]
    rfl
  cutsFront := by
    intro grammar rule hrule p hp hlook
    exact Pattern.cutsFront_of_tame (tame_of_wellBuilt h grammar rule hrule p hp) hlook
  shorter := fun _ _ _ hcycle => shorter_of_cycle h hcycle
  enough := fun _ _ _ _ hc _ _ _ _ hat hn => Level.scan_eq_of_le hc hat hn
  givesUp := fun _ _ _ _ _ _ => Pattern.find_of_givesUp

/-- Whether grammars have been registered and are well built. -/
def allWellBuilt (a b : Char) : Except GrammarError Store → Bool
  | .ok s => s.wellBuilt a b
  | .error _ => false

theorem exists_safe_of_allWellBuilt {r : Except GrammarError Store} {a b : Char}
    (h : allWellBuilt a b r = true) : ∃ s, r = .ok s ∧ s.Safe := by
  cases r with
  | ok s => exact ⟨s, rfl, safe_of_wellBuilt h⟩
  | error e => simp [allWellBuilt] at h

theorem allWellBuilt_builtins : allWellBuilt '\x60' '$' builtins = true := by
  decide +kernel

/-- Tokenizing ends without a fault in every built-in language. -/
theorem exists_safe_builtins : ∃ s, builtins = .ok s ∧ s.Safe :=
  exists_safe_of_allWellBuilt allWellBuilt_builtins

end Store

end SyntaxHue
