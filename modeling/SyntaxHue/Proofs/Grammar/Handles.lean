import Mathlib.Data.List.Nodup
import SyntaxHue.Language.Builtin
import SyntaxHue.Proofs.Grammar.Atomic
import SyntaxHue.Proofs.Grammar.Compile
import SyntaxHue.Tokenizer

/-!
# Numbers of grammars

A pattern, a grammar and a name of a language refer to grammars by number. Numbers are given out
before there is anything in their slots: a slot is taken on the workbench, and what is compiled
after it may refer to it already. In a store that operations have made, no number is left without
a slot.
-/

namespace SyntaxHue

/-- The inner grammar of the pattern has a number below `n`. -/
def Pattern.Within (n : Nat) (p : Pattern) : Prop :=
  ∀ id, p.inside = some id → id.index < n

/-- The kind has a pattern, and the inner grammars of its patterns have numbers below `n`. -/
def Rule.Within (n : Nat) (rule : Rule) : Prop :=
  rule ≠ [] ∧ ∀ p ∈ rule, p.Within n

/-- The kinds of a grammar are distinct and have patterns, and the grammars that it refers to have
    numbers below `n`. -/
structure Grammar.Within (n : Nat) (g : Grammar) : Prop where
  nodup : g.rules.names.Nodup
  rules : ∀ entry ∈ g.rules.entries, Rule.Within n entry.2
  rest : ∀ id, g.rest = some id → id.index < n

/-- Every number of a grammar in the store is that of a slot. -/
structure Store.Closed (s : Store) : Prop where
  languages : ∀ entry ∈ s.languages.entries, entry.2.index < s.slots.size
  slots : ∀ g ∈ s.slots, g.Within s.slots.size

variable {n m : Nat}

theorem Rule.Within.mono {rule : Rule} (h : Rule.Within n rule) (hle : n ≤ m) :
    Rule.Within m rule :=
  ⟨h.1, fun p hp id hid => Nat.lt_of_lt_of_le (h.2 p hp id hid) hle⟩

theorem Grammar.Within.mono {g : Grammar} (h : g.Within n) (hle : n ≤ m) : g.Within m :=
  ⟨h.nodup, fun entry hentry => (h.rules entry hentry).mono hle,
    fun id hid => Nat.lt_of_lt_of_le (h.rest id hid) hle⟩

theorem Grammar.within_default (n : Nat) : (default : Grammar).Within n :=
  ⟨List.nodup_nil, fun _ hentry => absurd hentry List.not_mem_nil,
    fun _ hid => absurd hid (by simp [default])⟩

/-! ### Rules that are put together -/

namespace Table

variable {α : Type}

theorem nodup_names_filter {t : Table α} (h : t.names.Nodup) (p : String × α → Bool) :
    (Table.mk (t.entries.filter p)).names.Nodup :=
  h.sublist (List.filter_sublist.map Prod.fst)

theorem contains_of_mem {t : Table α} {name : String} (h : name ∈ t.names) :
    t.contains name = true := by
  obtain ⟨entries⟩ := t
  rw [contains, get?]
  induction entries with
  | nil => simp [names] at h
  | cons entry rest ih =>
    rw [find?]
    split
    · rfl
    · rename_i hother
      rw [names, List.map_cons, List.mem_cons] at h
      exact ih (h.resolve_left fun heq => hother heq.symm)

end Table

namespace Store

theorem mem_spliceBefore {before : String} {inserted rules : Table Rule} {entry : String × Rule}
    (h : entry ∈ (spliceBefore before inserted rules).entries) :
    entry ∈ inserted.entries ∨ entry ∈ rules.entries := by
  obtain ⟨other, hother, hentry⟩ := List.mem_flatMap.1 h
  rcases List.mem_append.1 hentry with hin | hold
  · split at hin
    · exact Or.inl hin
    · simp at hin
  · split at hold
    · simp at hold
    · rw [List.mem_singleton.1 hold]
      exact Or.inr hother

/-- The names that one entry of the old rules leads to. -/
theorem name_of_spliced {before name : String} {inserted : Table Rule} {entry : String × Rule}
    (h : name ∈ (((if entry.1 = before then inserted.entries else []) ++
      (if inserted.contains entry.1 then [] else [entry]) : List (String × Rule)).map Prod.fst)) :
    (entry.1 = before ∧ name ∈ inserted.names) ∨
      (name = entry.1 ∧ inserted.contains name = false) := by
  rw [List.map_append] at h
  rcases List.mem_append.1 h with hin | hold
  · split at hin
    · rename_i hbefore
      exact Or.inl ⟨hbefore, hin⟩
    · simp at hin
  · split at hold
    · simp at hold
    · rename_i hnot
      rw [List.map_cons, List.map_nil, List.mem_singleton] at hold
      rw [hold]
      exact Or.inr ⟨rfl, by simpa using hnot⟩

theorem nodup_spliceBefore {before : String} {inserted rules : Table Rule}
    (hin : inserted.names.Nodup) (hrules : rules.names.Nodup) :
    (spliceBefore before inserted rules).names.Nodup := by
  rw [Table.names, spliceBefore, List.map_flatMap, List.nodup_flatMap]
  refine ⟨?_, ?_⟩
  · intro entry _
    rw [List.map_append, List.nodup_append]
    refine ⟨?_, ?_, ?_⟩
    · split
      · exact hin
      · exact List.nodup_nil
    · split <;> simp
    · intro a ha b hb hab
      split at ha
      · split at hb
        · simp at hb
        · rename_i hnot
          rw [List.map_cons, List.map_nil, List.mem_singleton] at hb
          rw [hab, hb] at ha
          exact hnot (Table.contains_of_mem ha)
      · simp at ha
  · -- two entries have different names, and only one of them can be `before`
    have hpairs : rules.entries.Pairwise fun x y => x.1 ≠ y.1 := List.pairwise_map.1 hrules
    refine hpairs.imp ?_
    intro x y hxy name hx hy
    rcases name_of_spliced hx with ⟨hx, hinx⟩ | ⟨hx, hnotx⟩
    · rcases name_of_spliced hy with ⟨hy, -⟩ | ⟨-, hnoty⟩
      · exact hxy (hx.trans hy.symm)
      · rw [Table.contains_of_mem hinx] at hnoty
        simp at hnoty
    · rcases name_of_spliced hy with ⟨-, hiny⟩ | ⟨hy, -⟩
      · rw [Table.contains_of_mem hiny] at hnotx
        simp at hnotx
      · exact hxy (hx.symm.trans hy)

theorem mem_mergeRules {base overrides : Table Rule} {placement : Placement}
    {entry : String × Rule} (h : entry ∈ (mergeRules base overrides placement).entries) :
    entry ∈ base.entries ∨ entry ∈ overrides.entries := by
  have hmerged : ∀ entry,
      entry ∈ (base.putAll (overrides.entries.filter fun e => base.contains e.1)).entries →
        entry ∈ base.entries ∨ entry ∈ overrides.entries := by
    intro entry hentry
    exact (Table.mem_putAll hentry).imp_right fun hknown => (List.mem_filter.1 hknown).1
  cases placement with
  | atEnd =>
    rcases Table.mem_putAll h with hentry | hadded
    · exact hmerged entry hentry
    · exact Or.inr (List.mem_filter.1 hadded).1
  | before kind =>
    rcases mem_spliceBefore h with hadded | hentry
    · exact Or.inr (List.mem_filter.1 hadded).1
    · exact hmerged entry hentry

theorem nodup_mergeRules {base overrides : Table Rule} (placement : Placement)
    (hbase : base.names.Nodup) (hoverrides : overrides.names.Nodup) :
    (mergeRules base overrides placement).names.Nodup := by
  have hmerged := Table.nodup_names_putAll hbase
    (overrides.entries.filter fun entry => base.contains entry.1)
  cases placement with
  | atEnd => exact Table.nodup_names_putAll hmerged _
  | before kind => exact nodup_spliceBefore (Table.nodup_names_filter hoverrides _) hmerged

end Store

/-! ### Compiling -/

namespace Compiler

variable {c : Compiler} {before between after : Array Grammar} {P Q : Prop}

/-- The names that a definition can use lead to numbers below `n`. -/
def Resolves (c : Compiler) (n : Nat) : Prop :=
  ∀ name id, c.resolve name = some id → id.index < n

/-- Compiling has made `after` out of `before`. If `n` is no less than the slots that there are
    then, all numbers are below `n` in the end, and `P` holds of what was compiled. -/
structure Grows (c : Compiler) (n : Nat) (before after : Array Grammar) (P : Prop) : Prop where
  size_le : before.size ≤ after.size
  within : c.base + after.size ≤ n → c.Resolves n → (∀ g ∈ before, g.Within n) →
    (∀ g ∈ after, g.Within n) ∧ P

namespace Grows

theorem same (h : c.Resolves n → P) : c.Grows n before before P :=
  ⟨Nat.le_refl _, fun _ hresolves hbefore => ⟨hbefore, h hresolves⟩⟩

theorem mono (h : c.Grows n before after P) (hPQ : P → Q) : c.Grows n before after Q := by
  refine ⟨h.size_le, ?_⟩
  intro hle hresolves hbefore
  obtain ⟨hafter, hP⟩ := h.within hle hresolves hbefore
  exact ⟨hafter, hPQ hP⟩

theorem trans (hP : c.Grows n before between P) (hQ : c.Grows n between after Q) :
    c.Grows n before after (P ∧ Q) := by
  refine ⟨Nat.le_trans hP.size_le hQ.size_le, ?_⟩
  intro hle hresolves hbefore
  have hsize := hQ.size_le
  obtain ⟨hbetween, hp⟩ := hP.within (by omega) hresolves hbefore
  obtain ⟨hafter, hq⟩ := hQ.within hle hresolves hbetween
  exact ⟨hafter, hp, hq⟩

/-- A slot that is taken before and filled afterwards. -/
theorem slot {g : Grammar} (h : c.Grows n (before.push default) after P)
    (hg : c.Resolves n → P → g.Within n) :
    c.Grows n before (after.setIfInBounds before.size g) True := by
  have hsize := h.size_le
  rw [Array.size_push] at hsize
  refine ⟨by rw [Array.size_setIfInBounds]; omega, ?_⟩
  intro hle hresolves hbefore
  rw [Array.size_setIfInBounds] at hle
  have hpush : ∀ g ∈ before.push default, g.Within n := by
    intro other hother
    rcases Array.mem_push.1 hother with hother | rfl
    · exact hbefore other hother
    · exact Grammar.within_default n
  obtain ⟨hafter, hP⟩ := h.within hle hresolves hpush
  refine ⟨?_, trivial⟩
  intro other hother
  rcases Array.mem_or_eq_of_mem_setIfInBounds hother with hother | rfl
  · exact hafter other hother
  · exact hg hresolves hP

end Grows

theorem index_lt_of_rest {next : Option String} {id? : Option GrammarId} {id : GrammarId}
    (h : c.rest next = .ok id?) (hresolves : c.Resolves n) (hid : id? = some id) :
    id.index < n := by
  have hresolve := resolve_of_rest h
  rw [hid] at hresolve
  obtain ⟨name, -, hname⟩ := Option.map_eq_some_iff.1 hresolve
  exact hresolves name id hname

/-- A kind without patterns is not compiled. -/
theorem ne_nil_of_rule {d : RuleDef} {entry : String × Rule}
    (h : c.rule before d = .ok (entry, after)) : d.patterns ≠ [] := by
  match d with
  | .mk kind [] =>
    rw [rule] at h
    contradiction
  | .mk kind (first :: more) => exact List.cons_ne_nil first more

theorem length_of_patterns {kind : String} {patterns : List PatternDef} {rule : Rule}
    (h : c.patterns before kind patterns = .ok (rule, after)) : rule.length = patterns.length := by
  induction patterns generalizing before rule with
  | nil =>
    cases h
    rfl
  | cons first more ih =>
    rw [Compiler.patterns] at h
    obtain ⟨⟨p, between⟩, -, h⟩ := exists_of_bind h
    obtain ⟨⟨others, last⟩, hpatterns, h⟩ := exists_of_bind h
    cases h
    rw [List.length_cons, List.length_cons, ih hpatterns]

mutual

/-- A definition is compiled into the next slot. -/
theorem grammar_grows {before after : Array Grammar} {d : GrammarDef} {id : GrammarId}
    (h : c.grammar before d = .ok (id, after)) :
    id = ⟨c.base + before.size⟩ ∧ before.size < after.size ∧ c.Grows n before after True := by
  match d with
  | .mk rules next =>
    rw [grammar] at h
    obtain ⟨⟨entries, between⟩, hrules, h⟩ := exists_of_bind h
    obtain ⟨next, hrest, h⟩ := exists_of_bind h
    cases h
    have hgrows := rules_grows hrules
    have hsize := hgrows.size_le
    rw [Array.size_push] at hsize
    refine ⟨rfl, by rw [Array.size_setIfInBounds]; omega, hgrows.slot ?_⟩
    intro hresolves hentries
    refine ⟨Table.nodup_names_ofList entries, ?_, fun id => index_lt_of_rest hrest hresolves⟩
    intro entry hentry
    rcases Table.mem_putAll hentry with hnone | hentry
    · simp [Table.empty] at hnone
    · exact hentries entry hentry

theorem rules_grows {before after : Array Grammar} {rules : List RuleDef}
    {entries : List (String × Rule)} (h : c.rules before rules = .ok (entries, after)) :
    c.Grows n before after (∀ entry ∈ entries, Rule.Within n entry.2) := by
  match rules with
  | [] =>
    cases h
    exact .same fun _ => List.forall_mem_nil _
  | .mk kind patterns :: rules =>
    rw [Compiler.rules] at h
    obtain ⟨⟨entry, between⟩, hrule, h⟩ := exists_of_bind h
    obtain ⟨⟨entries, last⟩, hrules, h⟩ := exists_of_bind h
    cases h
    obtain ⟨-, name, hpatterns⟩ := kind_of_rule hrule
    refine ((patterns_grows hpatterns).trans (rules_grows hrules)).mono ?_
    rintro ⟨hfirst, hothers⟩
    refine List.forall_mem_cons.2 ⟨⟨?_, hfirst⟩, hothers⟩
    have hlength := length_of_patterns hpatterns
    intro hnil
    rw [hnil, List.length_nil] at hlength
    exact ne_nil_of_rule hrule (List.eq_nil_of_length_eq_zero hlength.symm)

theorem patterns_grows {before after : Array Grammar} {kind : String} {patterns : List PatternDef}
    {rule : Rule} (h : c.patterns before kind patterns = .ok (rule, after)) :
    c.Grows n before after (∀ p ∈ rule, p.Within n) := by
  match patterns with
  | [] =>
    cases h
    exact .same fun _ => List.forall_mem_nil _
  | .mk head inside :: patterns =>
    rw [Compiler.patterns, pattern] at h
    obtain ⟨⟨p, between⟩, hpattern, h⟩ := exists_of_bind h
    obtain ⟨⟨rule, last⟩, hpatterns, h⟩ := exists_of_bind h
    cases h
    obtain ⟨r, -, hpattern⟩ := exists_of_bind hpattern
    obtain ⟨⟨id?, last⟩, hinside, hpattern⟩ := exists_of_bind hpattern
    cases hpattern
    refine ((inside_grows hinside).trans (patterns_grows hpatterns)).mono ?_
    rintro ⟨hfirst, hothers⟩
    exact List.forall_mem_cons.2 ⟨hfirst, hothers⟩

theorem inside_grows {before after : Array Grammar} {inside : InsideDef}
    {id? : Option GrammarId} (h : c.inside before inside = .ok (id?, after)) :
    c.Grows n before after (∀ id, id? = some id → id.index < n) := by
  match inside with
  | .none =>
    cases h
    refine .same fun _ id hid => ?_
    simp at hid
  | .language name =>
    rw [Compiler.inside] at h
    obtain ⟨found, hlanguage, h⟩ := exists_of_bind h
    cases h
    refine .same fun hresolves id hid => ?_
    cases hid
    exact hresolves name found (resolve_of_language hlanguage)
  | .grammar d =>
    rw [Compiler.inside] at h
    obtain ⟨⟨found, last⟩, hgrammar, h⟩ := exists_of_bind h
    cases h
    obtain ⟨rfl, hlt, hgrows⟩ := grammar_grows hgrammar
    refine ⟨hgrows.size_le, ?_⟩
    intro hle hresolves hbefore
    obtain ⟨hafter, -⟩ := hgrows.within hle hresolves hbefore
    refine ⟨hafter, ?_⟩
    rintro id ⟨⟩
    dsimp only
    omega

end

end Compiler

end SyntaxHue
