import SyntaxHue.Highlighter
import SyntaxHue.Proofs.Markup
import SyntaxHue.Proofs.Tokenizer.Tree

/-!
# Highlighting keeps the text

The kinds and aliases of tokens come from the grammars of the store. If none of them ends a tag,
the markup of a text is the escaped text with tags in it, in whichever way the text is highlighted:
as tokens, as it stands because it is too long, or as it stands because nobody knows its language.
-/

namespace SyntaxHue

open Tokenizer Markup

/-! ### Names in tokens -/

/-- Every kind and every alias of a grammar has `P`. -/
def Grammar.Named (P : String → Prop) (g : Grammar) : Prop :=
  ∀ rule ∈ g.rules.entries, P rule.1 ∧ ∀ p ∈ rule.2, ∀ name ∈ p.aliases, P name

/-- Every kind and every alias of the grammars of a store has `P`. -/
def Store.Named (P : String → Prop) (s : Store) : Prop :=
  ∀ g ∈ s.slots, g.Named P

section

variable {P : String → Prop} {s : Store}

theorem Store.Named.rules (h : s.Named P) (grammar : GrammarId) :
    ∀ rule ∈ (s.rules grammar).entries, P rule.1 ∧ ∀ p ∈ rule.2, ∀ name ∈ p.aliases, P name := by
  intro rule hrule
  rw [Store.rules] at hrule
  cases hslot : s.grammar? grammar with
  | none =>
    rw [hslot] at hrule
    contradiction
  | some g =>
    rw [hslot] at hrule
    exact h g (Array.mem_of_getElem? hslot) rule hrule

theorem Store.Named.effectiveRules (h : s.Named P) (grammar : GrammarId) :
    ∀ rule ∈ (s.effectiveRules grammar).entries,
      P rule.1 ∧ ∀ p ∈ rule.2, ∀ name ∈ p.aliases, P name := by
  intro rule hrule
  rw [Store.effectiveRules] at hrule
  cases hslot : s.grammar? grammar with
  | none =>
    rw [hslot] at hrule
    contradiction
  | some g =>
    rw [hslot] at hrule
    have hg : g.Named P := h g (Array.mem_of_getElem? hslot)
    cases hrest : g.rest with
    | none =>
      simp only [hrest] at hrule
      exact hg rule hrule
    | some rest =>
      simp only [hrest] at hrule
      rcases Table.mem_putAll hrule with hown | hother
      · exact hg rule hown
      · exact h.rules rest rule hother

theorem namedAll_of_forall {nodes : List Node} (h : ∀ t, .token t ∈ nodes → t.Named P) :
    NamedAll P nodes := by
  induction nodes with
  | nil => exact trivial
  | cons node nodes ih =>
    refine ⟨?_, ih fun t ht => h t (List.mem_cons_of_mem node ht)⟩
    cases node with
    | text s => exact trivial
    | token t => exact h t List.mem_cons_self

/-- The names in a token tree come from the store, at any depth. -/
theorem Tokenizer.namedAll_of_nested (hs : s.Named P) {depth : Nat} {grammar : GrammarId}
    {text : List Char} {nodes : List Node} (h : nested s depth grammar text = .ok nodes) :
    NamedAll P nodes := by
  induction depth generalizing grammar text nodes with
  | zero => simp [nested] at h
  | succ depth ih =>
    refine namedAll_of_forall fun t ht => ?_
    obtain ⟨offset, matched, -, hmade⟩ := (covers_of_nested h).exists_of_mem ht
    obtain ⟨rule, hrule, p, hp, hkind, haliases, -, -, hcontent⟩ := hmade.exists_rule
    obtain ⟨hruleKind, hruleAliases⟩ := hs.effectiveRules grammar rule hrule
    obtain ⟨kind, content, aliases, length⟩ := t
    cases hkind
    cases haliases
    refine ⟨hruleKind, hruleAliases p hp, ?_⟩
    split at hcontent
    · cases hcontent
      exact trivial
    · obtain ⟨children, hchildren, hcontent⟩ := hcontent
      cases hcontent
      exact ih hchildren

end

namespace Highlighter

variable {σ : Type} {h : Highlighter σ}

theorem highlight_eq (hhooks : h.hooks.isEmpty = true) (text : String) (grammar : GrammarId)
    (language : String) (st : σ) :
    h.highlight text grammar language st =
      if h.settings.isTooLong text then .ok (escape text, st)
      else (h.store.tokenize text grammar).map fun nodes => h.render nodes language st := by
  have hstage : ∀ stage env st, h.runStage stage env st = (env, st) :=
    fun stage env st => HookRegistry.run_of_isEmpty hhooks _ _ _
  rw [highlight, process]
  simp only [hstage]
  cases h.settings.isTooLong text with
  | true => rfl
  | false => cases h.store.tokenize text grammar <;> rfl

/-- Highlighting keeps the text: without its tags the markup is the escaped text, and that is the
    text itself, but for no-break spaces, when its entities are taken back. -/
theorem stripTags_highlightLanguage (h : Highlighter σ) (text language : String) (st : σ)
    (hhooks : h.hooks.isEmpty = true) (hwrap : h.wrapHooks.isEmpty = true)
    (htag : '>' ∉ h.settings.render.tag.toList)
    (hfirst : '>' ∉ h.settings.render.classPrefix.toList)
    (hnames : h.store.Named fun name => '>' ∉ name.toList)
    (hreturns : ∀ grammar, h.store.get? language = some grammar →
      h.settings.isTooLong text = false → ∃ nodes, h.store.tokenize text grammar = .ok nodes) :
    ∃ markup, h.highlightLanguage text language st = .ok (markup, st) ∧
      stripTags markup = escape text ∧ unescape (stripTags markup) = plainSpaces text := by
  suffices hstrip : ∃ markup, h.highlightLanguage text language st = .ok (markup, st) ∧
      stripTags markup = escape text by
    obtain ⟨markup, hmarkup, hstrip⟩ := hstrip
    refine ⟨markup, hmarkup, hstrip, ?_⟩
    rw [hstrip, unescape_escape]
  have hescape : stripTags (escape text) = escape text := (hasText_escape text).stripTags
  rw [highlightLanguage]
  cases hget : h.store.get? language with
  | none => exact ⟨_, rfl, hescape⟩
  | some grammar =>
    dsimp only
    rw [highlight_eq hhooks]
    cases hlong : h.settings.isTooLong text with
    | true => exact ⟨_, rfl, hescape⟩
    | false =>
      obtain ⟨nodes, hnodes⟩ := hreturns grammar hget hlong
      have hnamed : NamedAll Unclosing nodes := namedAll_of_nested hnames hnodes
      have hflatten : flattenAll nodes = text := by
        rw [flattenAll_of_nested hnodes, String.ofList_toList]
      obtain ⟨markup, hrender, hstrip⟩ := exists_render ⟨hwrap, htag, hfirst⟩ language hnamed st
      rw [hflatten] at hstrip
      refine ⟨markup, ?_, hstrip⟩
      rw [hnodes, if_neg Bool.false_ne_true]
      exact congrArg Except.ok hrender

/-- A highlighter with a limit for the length of its inputs, and its own names in tags. -/
def limited : Highlighter Unit where
  store := Store.listings
  settings := { render := { tag := "i", classPrefix := "<" }, maxInputBytes := 10 }

theorem exists_tokenize_limited :
    ∃ nodes, limited.store.tokenize "a (1) <&" ⟨0⟩ = .ok nodes := by
  have hok : (limited.store.tokenize "a (1) <&" ⟨0⟩).isOk = true := by decide +kernel
  cases h : limited.store.tokenize "a (1) <&" ⟨0⟩ with
  | error e => simp [h, Except.isOk, Except.toBool] at hok
  | ok nodes => exact ⟨nodes, rfl⟩

theorem stripTags_limited : ∃ markup,
    limited.highlightLanguage "a (1) <&" "listing" () = .ok (markup, ()) ∧
      stripTags markup = escape "a (1) <&" ∧
      unescape (stripTags markup) = plainSpaces "a (1) <&" := by
  have hnames : limited.store.Named fun name => '>' ∉ name.toList := by
    have hslots : ∀ g ∈ Store.listings.slots.toList, ∀ rule ∈ g.rules.entries,
        '>' ∉ rule.1.toList ∧ ∀ p ∈ rule.2, ∀ name ∈ p.aliases, '>' ∉ name.toList := by
      decide +kernel
    exact fun g hg => hslots g (Array.mem_toList_iff.2 hg)
  refine stripTags_highlightLanguage limited "a (1) <&" "listing" () rfl rfl (by decide)
    (by decide) hnames fun grammar hgrammar _ => ?_
  have hget : limited.store.get? "listing" = some ⟨0⟩ := by decide +kernel
  obtain rfl := Option.some.inj (hget.symm.trans hgrammar)
  exact exists_tokenize_limited

end Highlighter

end SyntaxHue
