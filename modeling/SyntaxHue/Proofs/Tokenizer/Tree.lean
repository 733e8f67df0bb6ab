import SyntaxHue.Proofs.Tokenizer.Run

/-!
# The text of a token tree

Tokenizing loses nothing: the leaves of the tree give back the text, and every token, at any
depth, has the length of its text. The text of a token is what its pattern has found in the text
of the level that the token is in.
-/

namespace SyntaxHue

open Tokenizer

/-- The token `t` is in the tree `nodes` over `text`, in a level with the text `level`. -/
inductive Within : List Char → List Node → List Char → Token → Prop where
  | here {text : List Char} {nodes : List Node} {t : Token} :
      .token t ∈ nodes → Within text nodes text t
  | inside {text level : List Char} {nodes children : List Node} {t u : Token} :
      .token u ∈ nodes → u.content = .nested children →
      Within u.flatten.toList children level t → Within text nodes level t

theorem mem_candidates {rules : Table Rule} {c : Candidate} :
    c ∈ candidates rules ↔ ∃ rule ∈ rules.entries, c.kind = rule.1 ∧ c.pattern ∈ rule.2 := by
  unfold candidates
  simp only [List.mem_toArray, List.mem_flatMap, List.mem_map]
  constructor
  · rintro ⟨rule, hrule, p, hp, rfl⟩
    exact ⟨rule, hrule, rfl, hp⟩
  · rintro ⟨rule, hrule, hkind, hp⟩
    exact ⟨rule, hrule, c.pattern, hp, by rw [← hkind]⟩

namespace Store

/-- The text of a token is what a pattern of the store has found in the text `level`, and it is
    in the token without loss. -/
structure Keeps (s : Store) (level : List Char) (t : Token) : Prop where
  length_eq : t.length = t.flatten.utf8ByteSize
  /-- What the pattern has found is the text, or what the children have together. -/
  found : ∃ grammar, ∃ rule ∈ (s.effectiveRules grammar).entries, ∃ p ∈ rule.2,
    ∃ offset matched, p.FoundAt level offset matched ∧ t.kind = rule.1 ∧
      match t.content with
      | .text own => own = String.ofList matched
      | .nested children => flattenAll children = String.ofList matched

end Store

theorem Token.flatten_eq (t : Token) : t.flatten = t.content.flatten := by
  cases t
  rw [Token.flatten, content]

namespace Tokenizer

/-- Nodes that stand for a text have it as their text, if each of their tokens has. -/
theorem Covers.flattenAll {P : Nat → List Char → Token → Prop} {offset : Nat} {cs : List Char}
    {nodes : List Node} (h : Covers P offset cs nodes)
    (hP : ∀ o u t, P o u t → t.flatten = String.ofList u) :
    flattenAll nodes = String.ofList cs := by
  induction h with
  | nil => rfl
  | text _ ih =>
    rw [SyntaxHue.flattenAll, Node.flatten, ih, String.ofList_append, String.ofList_toList]
  | token _ ht _ ih =>
    rw [SyntaxHue.flattenAll, Node.flatten, ih, String.ofList_append, hP _ _ _ ht]

theorem Covers.exists_of_mem {P : Nat → List Char → Token → Prop} {offset : Nat} {cs : List Char}
    {nodes : List Node} {t : Token} (h : Covers P offset cs nodes) (ht : .token t ∈ nodes) :
    ∃ o matched, t.length = byteLength matched ∧ P o matched t := by
  obtain ⟨before, after, rfl⟩ := List.append_of_mem ht
  obtain ⟨_, matched, _, -, -, hlen, hP⟩ := h.exists_of_tokenAt ⟨before, after, rfl, rfl⟩
  exact ⟨_, matched, hlen, hP⟩

/-- What is known of a token: the rule that made it, where its pattern is found, and what the
    inner grammar has made of its text. -/
theorem Level.Made.exists_rule {rules : Table Rule} {bytes offset : Nat} {text matched : List Char}
    {inner : GrammarId → List Char → Except Fault (List Node)} {t : Token}
    (h : Level.Made ⟨bytes, candidates rules, inner⟩ text offset matched t) :
    ∃ rule ∈ rules.entries, ∃ p ∈ rule.2, t.kind = rule.1 ∧ t.aliases = p.aliases ∧
      t.length = byteLength matched ∧ p.FoundAt text offset matched ∧
      match p.inside with
      | none => t.content = .text (String.ofList matched)
      | some g => ∃ nodes, inner g matched = .ok nodes ∧ t.content = .nested nodes := by
  obtain ⟨c, hc, htoken, hfound⟩ := h
  obtain ⟨rule, hrule, hkind, hp⟩ := mem_candidates.1 hc
  obtain ⟨content, heq, hcontent⟩ := exists_of_token htoken
  cases heq
  exact ⟨rule, hrule, c.pattern, hp, hkind, rfl, rfl, hfound, hcontent⟩

theorem Level.Made.flatten {rules : Table Rule} {bytes offset : Nat} {text matched : List Char}
    {inner : GrammarId → List Char → Except Fault (List Node)} {t : Token}
    (h : Level.Made ⟨bytes, candidates rules, inner⟩ text offset matched t)
    (hinner : ∀ g u nodes, inner g u = .ok nodes → SyntaxHue.flattenAll nodes = String.ofList u) :
    t.flatten = String.ofList matched := by
  obtain ⟨rule, -, p, -, -, -, -, -, hcontent⟩ := h.exists_rule
  rw [Token.flatten_eq]
  split at hcontent
  · rw [hcontent, Content.flatten]
  · obtain ⟨nodes, hnodes, hcontent⟩ := hcontent
    rw [hcontent, Content.flatten, hinner _ _ _ hnodes]

variable {s : Store} {depth : Nat} {grammar : GrammarId} {text : List Char} {nodes : List Node}

/-- The level that a grammar makes of a text. -/
theorem covers_of_nested (h : nested s (depth + 1) grammar text = .ok nodes) :
    Covers (Level.Made ⟨byteLength text, candidates (s.effectiveRules grammar), nested s depth⟩
      text) 0 text nodes :=
  Level.covers_of_run h

theorem flattenAll_of_nested (h : nested s depth grammar text = .ok nodes) :
    flattenAll nodes = String.ofList text := by
  induction depth generalizing grammar text nodes with
  | zero => simp [nested] at h
  | succ depth ih =>
    refine (covers_of_nested h).flattenAll fun offset matched t ht => ?_
    exact ht.flatten fun g u nodes hnodes => ih hnodes

theorem keeps_of_nested {level : List Char} {t : Token}
    (h : nested s depth grammar text = .ok nodes) (ht : Within text nodes level t) :
    s.Keeps level t := by
  induction depth generalizing grammar text nodes with
  | zero => simp [nested] at h
  | succ depth ih =>
    have hcovers := covers_of_nested h
    have hflatten : ∀ g u nodes, nested s depth g u = .ok nodes →
        flattenAll nodes = String.ofList u := fun g u nodes => flattenAll_of_nested
    cases ht with
    | here ht =>
      obtain ⟨offset, matched, -, hmade⟩ := hcovers.exists_of_mem ht
      have htext := hmade.flatten hflatten
      obtain ⟨rule, hrule, p, hp, hkind, -, hlen, hfound, -⟩ := hmade.exists_rule
      refine ⟨?_, grammar, rule, hrule, p, hp, offset, matched, hfound, hkind, ?_⟩
      · rw [hlen, htext, utf8ByteSize_ofList]
      · rw [Token.flatten_eq] at htext
        split <;> simp_all [Content.flatten]
    | inside hu hchildren ht =>
      obtain ⟨offset, matched, -, hmade⟩ := hcovers.exists_of_mem hu
      have htext := hmade.flatten hflatten
      obtain ⟨rule, -, p, -, -, -, -, -, hcontent⟩ := hmade.exists_rule
      rw [htext, String.toList_ofList] at ht
      split at hcontent
      · simp [hchildren] at hcontent
      · obtain ⟨nodes', hnodes', hcontent⟩ := hcontent
        simp only [hchildren, Content.nested.injEq] at hcontent
        subst hcontent
        exact ih hnodes' ht

end Tokenizer

namespace Store

/-- Tokenizing keeps the text, in the tree as a whole and in every token at any depth. -/
theorem flattenAll_of_tokenize {s : Store} {text : String} {grammar : GrammarId}
    {nodes : List Node} (h : s.tokenize text grammar = .ok nodes) :
    flattenAll nodes = text ∧
      ∀ level t, Within text.toList nodes level t → s.Keeps level t := by
  refine ⟨?_, fun level t => keeps_of_nested h⟩
  rw [flattenAll_of_nested h, String.ofList_toList]

/-- A grammar in which groups cover the numbers that were found before them. -/
def listing : GrammarDef :=
  .ofRules [
    .mk "number" [.plain "\\d+"],
    .mk "group" [.mk { source := "\\([^)]*\\)", greedy := true }
      (.grammar (.ofRules [.mk "digit" [.plain "\\d"]] none))]] none

/-- The store with the grammar `listing`. -/
def listings : Store :=
  match empty.define "listing" listing with
  | .ok (_, s) => s
  | .error _ => empty

theorem isOk_tokenize_listings : (listings.tokenize "a (1) 2" ⟨0⟩).isOk = true := by
  decide +kernel

theorem exists_tokenize_listings : ∃ nodes, listings.tokenize "a (1) 2" ⟨0⟩ = .ok nodes := by
  have hok := isOk_tokenize_listings
  cases h : listings.tokenize "a (1) 2" ⟨0⟩ with
  | error e => simp [h, Except.isOk, Except.toBool] at hok
  | ok nodes => exact ⟨nodes, rfl⟩

theorem flattenAll_of_tokenize_listing : ∃ nodes, listings.tokenize "a (1) 2" ⟨0⟩ = .ok nodes ∧
    flattenAll nodes = "a (1) 2" ∧
      ∀ level t, Within "a (1) 2".toList nodes level t → listings.Keeps level t := by
  obtain ⟨nodes, h⟩ := exists_tokenize_listings
  exact ⟨nodes, h, flattenAll_of_tokenize h⟩

end Store

end SyntaxHue
