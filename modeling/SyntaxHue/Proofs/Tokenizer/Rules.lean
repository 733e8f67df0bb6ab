import SyntaxHue.Proofs.Tokenizer.Depth
import SyntaxHue.Proofs.Tokenizer.Tree

/-!
# Every token is made by a rule

A token has its kind and its classes from a rule of the grammar of its level, and the pattern of
the rule finds its text where the token is. What it holds is that text, or what the inner grammar
of the pattern makes of it when it is tokenized by itself.
-/

namespace SyntaxHue

open Tokenizer

namespace Store

mutual

/-- The tokens among `nodes`, which a grammar has made of a text, are all made by its rules, and
    so are those in them. -/
inductive Explained (s : Store) : GrammarId → List Char → List Node → Prop where
  | level {grammar : GrammarId} {text : List Char} {nodes : List Node} :
      (∀ offset t, TokenAt nodes offset t → ExplainedToken s grammar text offset t) →
      Explained s grammar text nodes

/-- The token at an offset in a text is made by a rule of the grammar. -/
inductive ExplainedToken (s : Store) : GrammarId → List Char → Nat → Token → Prop where
  | plain {grammar : GrammarId} {text matched : List Char} {offset : Nat} {rule : String × Rule}
      {p : Pattern} : rule ∈ (s.effectiveRules grammar).entries → p ∈ rule.2 → p.inside = none →
      p.FoundAt text offset matched →
      ExplainedToken s grammar text offset
        ⟨rule.1, .text (String.ofList matched), p.aliases, byteLength matched⟩
  | nested {grammar inner : GrammarId} {text matched : List Char} {offset : Nat}
      {rule : String × Rule} {p : Pattern} {children : List Node} :
      rule ∈ (s.effectiveRules grammar).entries → p ∈ rule.2 → p.inside = some inner →
      p.FoundAt text offset matched → flattenAll children = String.ofList matched →
      s.tokenize (String.ofList matched) inner = .ok children →
      Explained s inner matched children →
      ExplainedToken s grammar text offset
        ⟨rule.1, .nested children, p.aliases, byteLength matched⟩

end

end Store

namespace Tokenizer

theorem explained_of_nested {s : Store} {d : Nat} {grammar : GrammarId} {text : List Char}
    {nodes : List Node} (h : nested s d grammar text = .ok nodes) :
    s.Explained grammar text nodes := by
  induction d generalizing grammar text nodes with
  | zero => simp [nested] at h
  | succ d ih =>
    refine .level fun offset t ht => ?_
    obtain ⟨_, matched, _, -, -, -, hmade⟩ := (covers_of_nested h).exists_of_tokenAt ht
    obtain ⟨rule, hrule, p, hp, hkind, haliases, hlen, hfound, hcontent⟩ := hmade.exists_rule
    rw [Nat.zero_add] at hfound
    obtain ⟨kind, content, aliases, length⟩ := t
    simp only [Token.kind, Token.aliases, Token.length] at hkind haliases hlen
    simp only [Token.content] at hcontent
    subst hkind haliases hlen
    cases hinside : p.inside with
    | none =>
      simp only [hinside] at hcontent
      subst hcontent
      exact .plain hrule hp hinside hfound
    | some inner =>
      simp only [hinside] at hcontent
      obtain ⟨children, hchildren, rfl⟩ := hcontent
      exact .nested hrule hp hinside hfound (flattenAll_of_nested hchildren)
        (Store.tokenize_eq_of_nested hchildren) (ih hchildren)

end Tokenizer

namespace Store

/-- Tokenizing makes no token without a rule, at the top or at any depth. -/
theorem explained_of_tokenize {s : Store} {text : String} {grammar : GrammarId}
    {nodes : List Node} (h : s.tokenize text grammar = .ok nodes) :
    s.Explained grammar text.toList nodes :=
  explained_of_nested h

theorem explained_of_tokenize_listing : ∃ nodes, listings.tokenize "a (1) 2" ⟨0⟩ = .ok nodes ∧
    listings.Explained ⟨0⟩ "a (1) 2".toList nodes := by
  obtain ⟨nodes, h⟩ := exists_tokenize_listings
  exact ⟨nodes, h, explained_of_tokenize h⟩

end Store

end SyntaxHue
