import SyntaxHue.Proofs.Decoding
import SyntaxHue.Proofs.Grammar.Rest
import SyntaxHue.Proofs.Markup.InlinedPattern

/-!
# The text of elements in another language

A rule for the text of elements goes into the grammar of markup under the name of the elements, and
takes the place of all rules that the grammar has for that name. As long as no other rule is
inserted for the name, every token of that kind is the text of an element: it begins right behind a
start tag and ends right in front of the end tag. The name in the start tag begins with the name
that the rule is for. It need not end there, so that elements with a longer name are taken, too.
-/

namespace SyntaxHue

open Tokenizer Inlined
open Compiler (exists_of_bind)

namespace Inlined

/-- The pattern for the text of the elements `tagName`, as it is defined. -/
def head (tagName language : String) : PatternHead where
  source := Language.inlinedSource tagName
  lookbehind := true
  greedy := true
  aliases := ["language-" ++ language]

/-- A pattern for the text of the elements `tagName`. -/
def IsFor (tagName : String) (p : Pattern) : Prop :=
  ∃ language, (head tagName language).Describes p

theorem IsFor.exists_encloses {tagName : String} {p : Pattern} {text matched : List Char}
    {offset : Nat} (h : IsFor tagName p) (htag : ∀ c ∈ tagName.toList, c.isAlpha = true)
    (hfound : p.FoundAt text offset matched) :
    ∃ own more closing, Encloses text offset matched (own ++ more) closing ∧
      EqAnyCase own tagName.toList ∧ EqAnyCase closing tagName.toList := by
  obtain ⟨language, hdescribes⟩ := h
  have hmode : p.mode = .input := hdescribes.mode
  unfold Pattern.FoundAt at hfound
  rw [hmode] at hfound
  obtain ⟨here, m, rfl, -, hfind, rfl, rfl⟩ := hfound
  obtain ⟨part, hregex, hpart⟩ := exists_part_of_compile htag hdescribes.regex
  exact (stands_of_find hregex hpart hdescribes.lookbehind hfind).exists_encloses htag

/-- The one rule that is made of the definition for an element. -/
theorem exists_of_compiled {c : Compiler} {before after : Array Grammar} {tagName language : String}
    {compiled : List (String × Rule)}
    (h : c.rules before (Language.inlined tagName language).rules = .ok (compiled, after)) :
    ∃ p, compiled = [(tagName, [p])] ∧ IsFor tagName p := by
  change c.rules before [.mk tagName [.mk (head tagName language) (.language language)]] = _ at h
  rw [Compiler.rules] at h
  obtain ⟨⟨⟨kind, rule⟩, between⟩, hrule, h⟩ := exists_of_bind h
  obtain ⟨⟨others, last⟩, hothers, h⟩ := exists_of_bind h
  cases hothers
  cases h
  obtain ⟨hkind, other, hpatterns⟩ := Compiler.kind_of_rule hrule
  rw [RuleDef.patterns, Compiler.patterns] at hpatterns
  obtain ⟨⟨p, between⟩, hpattern, hpatterns⟩ := exists_of_bind hpatterns
  obtain ⟨⟨others, last⟩, hothers, hpatterns⟩ := exists_of_bind hpatterns
  cases hothers
  cases hpatterns
  rw [Compiler.pattern] at hpattern
  obtain ⟨r, hr, hpattern⟩ := exists_of_bind hpattern
  obtain ⟨⟨inside, between⟩, hinside, hpattern⟩ := exists_of_bind hpattern
  cases hpattern
  exact ⟨_, congrArg (fun kind => [(kind, _)]) hkind, language, Compiler.describes_assemble hr⟩

end Inlined

namespace Store

variable {s t u : Store} {id : GrammarId} {tagName : String} {op : Operation}
  {answer : Option GrammarId}

/-- All patterns that a grammar has of its own for the kind `tagName` are for the text of the
    elements of that name. -/
def Inlines (s : Store) (id : GrammarId) (tagName : String) : Prop :=
  ∀ entry ∈ (s.rules id).entries, entry.1 = tagName → ∀ p ∈ entry.2, IsFor tagName p

/-- What an operation inserts into the grammar `id` for the kind `tagName`, if it does, is the rule
    for the text of the elements of that name. -/
def Spares (s : Store) (id : GrammarId) (tagName : String) (op : Operation) : Prop :=
  ∀ before d, op.inserts s = some (id, before, d) → tagName ∈ d.kinds →
    ∃ language, d = Language.inlined tagName language

/-- The rules that go before a kind replace those of their own kinds. -/
theorem mem_inserted {before : String} {inserted rules : Table Rule} {entry : String × Rule}
    (h : entry ∈ (spliceBefore before inserted rules).entries) (hname : entry.1 ∈ inserted.names) :
    entry ∈ inserted.entries := by
  obtain ⟨other, -, hentry⟩ := List.mem_flatMap.1 h
  rcases List.mem_append.1 hentry with hin | hold
  · split at hin
    · exact hin
    · simp at hin
  · split at hold
    · simp at hold
    · rename_i hnot
      rw [List.mem_singleton.1 hold] at hname
      exact absurd (Table.contains_of_mem hname) hnot

theorem mem_of_mem_ofList {α : Type} {entry : String × α} {entries : List (String × α)}
    (h : entry ∈ (Table.ofList entries).entries) : entry ∈ entries := by
  rcases Table.mem_putAll h with hnone | hentry
  · simp [Table.empty] at hnone
  · exact hentry

/-- To insert the rule for an element leaves no other rule of that kind. -/
theorem Rebuilds.inlines {before language : String} {compiled : List (String × Rule)}
    {pending : Array Grammar}
    (h : s.Rebuilds id before (Language.inlined tagName language) compiled pending t)
    (hs : s.Closed) : t.Inlines id tagName := by
  obtain ⟨p, rfl, hp⟩ := exists_of_compiled h.compiled_eq
  obtain ⟨g, hg, hrebuilt⟩ := (h.only hs).rebuilt
  rintro ⟨kind, rule⟩ hentry rfl q hq
  rw [rules_of_grammar? hrebuilt] at hentry
  have hinserted := mem_of_mem_ofList (mem_inserted hentry List.mem_cons_self)
  cases List.mem_singleton.1 hinserted
  rwa [List.mem_singleton.1 hq]

/-- Rules of other kinds leave those of this kind as they are. -/
theorem Rebuilds.inlines_of_notMem {before : String} {d : GrammarDef}
    {compiled : List (String × Rule)} {pending : Array Grammar}
    (h : s.Rebuilds id before d compiled pending t) (hs : s.Closed) (hkind : tagName ∉ d.kinds)
    (hinlines : s.Inlines id tagName) : t.Inlines id tagName := by
  obtain ⟨g, hg, hrebuilt⟩ := (h.only hs).rebuilt
  rintro entry hentry rfl
  rw [rules_of_grammar? hrebuilt] at hentry
  rcases mem_spliceBefore hentry with hinserted | hold
  · refine absurd ?_ hkind
    rw [GrammarDef.kinds, ← Compiler.kinds_of_rules h.compiled_eq]
    exact List.mem_map_of_mem (mem_of_mem_ofList hinserted)
  · rw [← rules_of_grammar? hg] at hold
    exact hinlines entry hold rfl

theorem Inlines.apply (h : s.Inlines id tagName) (hs : s.Closed) (hid : id.index < s.slots.size)
    (hspares : s.Spares id tagName op) (happly : op.apply s = .ok (answer, t)) :
    t.Inlines id tagName := by
  cases Operation.effect_of_apply hs happly with
  | register _ hregisters =>
    have hsame := (hregisters.only hs).grammars id hid
    rwa [Inlines, rules, hsame]
  | rebuild hinserts hrebuilds hanswer =>
    rename_i target before d compiled pending
    by_cases htarget : id = target
    · subst htarget
      by_cases hkind : tagName ∈ d.kinds
      · obtain ⟨language, rfl⟩ := hspares before d hinserts hkind
        exact hrebuilds.inlines hs
      · exact hrebuilds.inlines_of_notMem hs hkind h
    · have hsame := (hrebuilds.only hs).others id hid htarget
      rwa [Inlines, rules, hsame]

/-- One operation leads from `s` to `t`, and it inserts no other rule for the kind `tagName` into
    the grammar `id` than that for the text of elements. -/
def Spared (id : GrammarId) (tagName : String) (s t : Store) : Prop :=
  ∃ op answer, s.Spares id tagName op ∧ op.apply s = .ok (answer, t)

theorem Inlines.run (h : s.Inlines id tagName) (hs : s.Closed) (hid : id.index < s.slots.size)
    (hrun : Relation.ReflTransGen (Spared id tagName) s t) :
    t.Closed ∧ id.index < t.slots.size ∧ t.Inlines id tagName := by
  induction hrun with
  | refl => exact ⟨hs, hid, h⟩
  | tail _ hstep ih =>
    obtain ⟨op, answer, hspares, happly⟩ := hstep
    obtain ⟨hclosed, hlt, hinlines⟩ := ih
    exact ⟨hclosed.apply happly, Nat.lt_of_lt_of_le hlt (hclosed.size_le happly).1,
      hinlines.apply hclosed hlt hspares happly⟩

theorem inlines_of_addInlined {language : String} (hs : s.Closed) (hid : s.get? "markup" = some id)
    (h : Language.addInlined s tagName language = .ok t) :
    t.Closed ∧ id.index < t.slots.size ∧ t.Inlines id tagName := by
  have happly : (Operation.addInlined tagName language).apply s = .ok (none, t) := by
    rw [Operation.apply, h]
    rfl
  have hlt := Nat.lt_of_lt_of_le (hs.get?_lt hid) (hs.size_le happly).1
  have htarget : s.target "markup" none = .ok id := by
    rw [target, hid]
  cases Operation.effect_of_apply hs happly with
  | rebuild hinserts hrebuilds _ =>
    rw [Operation.inserts, htarget] at hinserts
    cases hinserts
    exact ⟨hrebuilds.closed hs, hlt, hrebuilds.inlines hs⟩

/-- Every pattern that is applied for the kind is for the text of elements, if the rules that
    continue those of the grammar have none for it. -/
theorem Inlines.isFor (h : s.Inlines id tagName) (hrest : tagName ∉ (s.restRules id).names)
    {rule : String × Rule} (hrule : rule ∈ (s.effectiveRules id).entries) (hkind : rule.1 = tagName)
    {p : Pattern} (hp : p ∈ rule.2) : IsFor tagName p := by
  rw [effectiveRules_eq] at hrule
  rcases Table.mem_putAll hrule with hown | hother
  · exact h rule hown hkind p hp
  · refine absurd ?_ hrest
    rw [← hkind]
    exact List.mem_map_of_mem hother

/-- Once the elements `tagName` of markup have been given a language, and however the store is
    changed after that, as long as no other rules for the kind `tagName` are inserted into the
    grammar of markup: every token of that kind in a text in markup is the text of an element. It
    stands right behind a start tag and right in front of the end tag `</tagName>`, both in any
    case. The name in the start tag begins with `own`, which is `tagName`, but may go on with
    `more`; it is `tagName` only if it does not. -/
theorem encloses_of_tokenize {language text : String} {nodes : List Node} {offset : Nat}
    {token : Token} (hs : s.Closed) (hid : s.get? "markup" = some id)
    (htag : ∀ c ∈ tagName.toList, c.isAlpha = true)
    (hadd : Language.addInlined s tagName language = .ok t)
    (hrun : Relation.ReflTransGen (Spared id tagName) t u)
    (hrest : tagName ∉ (u.restRules id).names) (h : u.tokenize text id = .ok nodes)
    (htoken : TokenAt nodes offset token) (hkind : token.kind = tagName) :
    ∃ matched own more closing, Encloses text.toList offset matched (own ++ more) closing ∧
      token.flatten = String.ofList matched ∧ token.length = byteLength matched ∧
      EqAnyCase own tagName.toList ∧ EqAnyCase closing tagName.toList ∧
      (EqAnyCase (own ++ more) tagName.toList ↔ more = []) := by
  obtain ⟨hclosed, hlt, hadded⟩ := inlines_of_addInlined hs hid hadd
  obtain ⟨-, -, hinlines⟩ := hadded.run hclosed hlt hrun
  have hcovers := covers_of_nested h
  obtain ⟨_, matched, _, -, -, hlength, hmade⟩ := hcovers.exists_of_tokenAt htoken
  rw [Nat.zero_add] at hmade
  -- a pattern for the kind made the token, and all of those are for the text of elements
  obtain ⟨rule, hrule, p, hp, hrulekind, -, -, hfound, -⟩ := hmade.exists_rule
  have hfor := hinlines.isFor hrest hrule (hrulekind.symm.trans hkind) hp
  obtain ⟨own, more, closing, hencloses, hown, hclosing⟩ := hfor.exists_encloses htag hfound
  refine ⟨matched, own, more, closing, hencloses, ?_, hlength, hown, hclosing, hown.append_iff⟩
  exact hmade.flatten fun g u nodes => flattenAll_of_nested

/-- Markup and a language without rules. -/
def sheets : Except GrammarError Store := do
  let s ← Language.addMarkup .empty
  Prod.snd <$> s.define "css" .empty

theorem closed_sheets (h : sheets = .ok s) : s.Closed := by
  obtain ⟨markup, hmarkup, h⟩ := exists_of_bind h
  obtain ⟨⟨_, mid⟩, hdefine, haliases⟩ := exists_of_bind hmarkup
  have hclosed := (closed_empty.define hdefine).addAliases haliases
  cases hcss : markup.define "css" .empty with
  | error e => simp [hcss, Functor.map, Except.map] at h
  | ok x =>
    rw [hcss] at h
    cases h
    exact hclosed.define hcss

/-- Whether the second of three nodes is a token of the kind `style`, behind eight bytes, once the
    elements `style` are in the other language. -/
def styled (text : String) (s : Store) : Bool :=
  match s.get? "markup", Language.addInlined s "style" "css" with
  | some id, .ok t =>
    match t.tokenize text id with
    | .ok [first, .token token, _] =>
      first.length == 8 && token.kind == "style" && !(t.restRules id).names.contains "style"
    | _ => false
  | _, _ => false

theorem exists_of_any {α : Type} {r : Except GrammarError α} {p : α → Bool}
    (h : r.toOption.any p = true) : ∃ a, r = .ok a ∧ p a = true := by
  cases r with
  | error e => contradiction
  | ok a => exact ⟨a, rfl, h⟩

theorem exists_of_styled {text : String} (h : sheets.toOption.any (styled text) = true) :
    ∃ s t id nodes token, sheets = .ok s ∧ s.get? "markup" = some id ∧
      Language.addInlined s "style" "css" = .ok t ∧ "style" ∉ (t.restRules id).names ∧
      t.tokenize text id = .ok nodes ∧ TokenAt nodes 8 token ∧ token.kind = "style" := by
  obtain ⟨s, hsheets, hstyled⟩ := exists_of_any h
  unfold styled at hstyled
  split at hstyled
  · rename_i id t hid hadd
    split at hstyled
    · rename_i first token last h
      rw [Bool.and_eq_true, Bool.and_eq_true, beq_iff_eq, beq_iff_eq, Bool.not_eq_true'] at hstyled
      obtain ⟨⟨hlength, hkind⟩, hrest⟩ := hstyled
      refine ⟨s, t, id, [first, .token token, last], token, hsheets, hid, hadd, ?_, h,
        ⟨[first], [last], rfl, hlength⟩, hkind⟩
      intro hmem
      rw [List.contains_iff_mem.2 hmem] at hrest
      exact absurd hrest.symm Bool.false_ne_true
    · exact absurd hstyled Bool.false_ne_true
  · exact absurd hstyled Bool.false_ne_true

theorem styled_stylex : sheets.toOption.any (styled "<stylex>a</style>") = true := by
  decide +kernel

/-- Behind the start tag of an element whose name goes on, text is taken for that of a style
    sheet. -/
theorem encloses_of_tokenize_stylex : ∃ s t id nodes token, sheets = .ok s ∧ s.Closed ∧
    s.get? "markup" = some id ∧ (∀ c ∈ "style".toList, c.isAlpha = true) ∧
    Language.addInlined s "style" "css" = .ok t ∧
    Relation.ReflTransGen (Spared id "style") t t ∧ "style" ∉ (t.restRules id).names ∧
    t.tokenize "<stylex>a</style>" id = .ok nodes ∧ TokenAt nodes 8 token ∧ token.kind = "style" ∧
    ∃ matched own more closing,
      Encloses "<stylex>a</style>".toList 8 matched (own ++ more) closing ∧
        token.flatten = String.ofList matched ∧ token.length = byteLength matched ∧
        EqAnyCase own "style".toList ∧ EqAnyCase closing "style".toList ∧
        (EqAnyCase (own ++ more) "style".toList ↔ more = []) := by
  obtain ⟨s, t, id, nodes, token, hsheets, hid, hadd, hrest, h, htoken, hkind⟩ :=
    exists_of_styled styled_stylex
  have hs := closed_sheets hsheets
  have htag : ∀ c ∈ "style".toList, c.isAlpha = true := List.all_eq_true.1 (by decide)
  exact ⟨s, t, id, nodes, token, hsheets, hs, hid, htag, hadd, .refl, hrest, h, htoken, hkind,
    encloses_of_tokenize hs hid htag hadd .refl hrest h htoken hkind⟩

/-- That token is not the text of an element `style`: it stands behind `<stylex>`. -/
theorem not_style_stylex : ∃ s t id nodes token, sheets = .ok s ∧ s.get? "markup" = some id ∧
    Language.addInlined s "style" "css" = .ok t ∧
    t.tokenize "<stylex>a</style>" id = .ok nodes ∧ TokenAt nodes 8 token ∧ token.kind = "style" ∧
    ∀ matched name closing, Encloses "<stylex>a</style>".toList 8 matched name closing →
      ¬ EqAnyCase name "style".toList := by
  obtain ⟨s, t, id, nodes, token, hsheets, hid, hadd, -, h, htoken, hkind⟩ :=
    exists_of_styled styled_stylex
  refine ⟨s, t, id, nodes, token, hsheets, hid, hadd, h, htoken, hkind, ?_⟩
  rintro matched name closing ⟨before, inner, after, htext, hoffset, -, rfl⟩
  have hsplit : ("<stylex>a</style>".toList : List Char) =
      "<stylex>".toList ++ "a</style>".toList := by decide
  rw [hsplit, ← List.append_assoc] at htext
  obtain ⟨hfront, -⟩ := append_inj_of_byteLength htext (by
    rw [byteLength_append, hoffset]
    decide)
  cases before with
  | nil =>
    have hinner : "stylex".toList ++ ['>'] = inner ++ ['>'] := (List.cons.inj hfront).2
    rw [← List.append_cancel_right hinner]
    decide +kernel
  | cons c before =>
    have htail : "stylex>".toList = before ++ ('<' :: inner ++ ['>']) := (List.cons.inj hfront).2
    have hmem : '<' ∈ "stylex>".toList := by
      rw [htail]
      simp
    exact absurd hmem (by decide)

end Store

end SyntaxHue
