import SyntaxHue.Grammar.Source
import Mathlib.Data.List.Basic

/-!
# The grammars of a definition

A definition has further definitions in it, which are listed here in the order in which they are
written. A definition that is put together from rules, or read from a text, has no two rules for a
kind in any of them.
-/

namespace SyntaxHue

mutual

/-- The grammars that are defined inside a grammar, in the order in which they are written: each
    before those that are defined inside it. -/
def GrammarDef.inner : GrammarDef → List GrammarDef
  | .mk rules _ => RuleDef.inner rules

/-- The grammars that are defined inside rules. -/
def RuleDef.inner : List RuleDef → List GrammarDef
  | [] => []
  | .mk _ patterns :: rules => PatternDef.inner patterns ++ RuleDef.inner rules

/-- The grammars that are defined inside patterns. -/
def PatternDef.inner : List PatternDef → List GrammarDef
  | [] => []
  | .mk _ inside :: patterns => inside.inner ++ PatternDef.inner patterns

/-- The grammars that are defined in place of an inner grammar. -/
def InsideDef.inner : InsideDef → List GrammarDef
  | .none => []
  | .language _ => []
  | .grammar d => d :: d.inner

end

/-- All grammars of a definition: the outermost one, and those that are defined inside it. -/
def GrammarDef.grammars (d : GrammarDef) : List GrammarDef :=
  d :: d.inner

/-- No grammar of a definition has two rules for a kind. -/
def GrammarDef.Distinct (d : GrammarDef) : Prop :=
  ∀ e ∈ d.grammars, e.kinds.Nodup

namespace GrammarDef

theorem kinds_putRule (rule : RuleDef) (rules : List RuleDef) :
    (putRule rule rules).map RuleDef.kind =
      if rule.kind ∈ rules.map RuleDef.kind then rules.map RuleDef.kind
      else rules.map RuleDef.kind ++ [rule.kind] := by
  induction rules with
  | nil => rfl
  | cons other rules ih =>
    by_cases hkind : other.kind = rule.kind
    · simp [putRule, hkind]
    · have hne : rule.kind ≠ other.kind := Ne.symm hkind
      rw [putRule, if_neg hkind, List.map_cons, ih]
      by_cases hmem : rule.kind ∈ rules.map RuleDef.kind <;> simp [hmem, hne]

theorem nodup_putRule {rules : List RuleDef} (h : (rules.map RuleDef.kind).Nodup)
    (rule : RuleDef) : ((putRule rule rules).map RuleDef.kind).Nodup := by
  rw [kinds_putRule]
  split
  · exact h
  · next hnew => exact List.nodup_append.2 ⟨h, by simp, by simp_all [ne_comm]⟩

theorem mem_inner_putRule {rule : RuleDef} {rules : List RuleDef} {e : GrammarDef}
    (h : e ∈ RuleDef.inner (putRule rule rules)) :
    e ∈ PatternDef.inner rule.patterns ∨ e ∈ RuleDef.inner rules := by
  obtain ⟨kind, patterns⟩ := rule
  induction rules with
  | nil => simpa [putRule, RuleDef.inner, RuleDef.patterns] using h
  | cons other rules ih =>
    obtain ⟨otherKind, others⟩ := other
    rw [putRule] at h
    rw [RuleDef.inner, List.mem_append]
    split at h
    · rw [RuleDef.inner, List.mem_append] at h
      exact h.imp_right .inr
    · rw [RuleDef.inner, List.mem_append] at h
      rcases h with hothers | hrules
      · exact .inr (.inl hothers)
      · exact (ih hrules).imp_right .inr

/-- Of two rules for a kind only one is left, so a definition that is put together from rules has
    them for different kinds if the grammars that are defined inside the rules do. -/
theorem distinct_ofRules {rules : List RuleDef} (h : ∀ e ∈ RuleDef.inner rules, e.kinds.Nodup)
    (rest : Option String) : (ofRules rules rest).Distinct := by
  have hfold : ∀ old : List RuleDef, (old.map RuleDef.kind).Nodup →
      (∀ e ∈ RuleDef.inner old, e.kinds.Nodup) →
      (mk (rules.foldl (fun rules rule => putRule rule rules) old) rest).Distinct := by
    induction rules with
    | nil => exact fun old hold hinner => List.forall_mem_cons.2 ⟨hold, hinner⟩
    | cons rule more ih =>
      intro old hold hinner
      obtain ⟨kind, patterns⟩ := rule
      rw [RuleDef.inner, List.forall_mem_append] at h
      refine ih h.2 _ (nodup_putRule hold _) fun e he => ?_
      rcases mem_inner_putRule he with hpatterns | hrules
      · exact h.1 e hpatterns
      · exact hinner e hrules
  exact hfold [] .nil (fun e he => absurd he List.not_mem_nil)

end GrammarDef

/-! ### Reading -/

mutual

theorem GrammarDef.distinct_of_ofDatum? {value : Datum} {d : GrammarDef}
    (h : GrammarDef.ofDatum? value = some d) : d.Distinct := by
  match value with
  | .record fields =>
    rw [GrammarDef.ofDatum?] at h
    obtain ⟨rest, -, h⟩ := Option.bind_eq_some_iff.1 h
    obtain ⟨rules, hrules, h⟩ := Option.bind_eq_some_iff.1 h
    cases h
    exact GrammarDef.distinct_ofRules (RuleDef.nodup_of_ofFields? hrules) rest
  | .null | .bool _ | .natural _ | .number _ | .text _ | .list _ => contradiction

theorem RuleDef.nodup_of_ofFields? {fields : List Field} {rules : List RuleDef}
    (h : RuleDef.ofFields? fields = some rules) : ∀ e ∈ RuleDef.inner rules, e.kinds.Nodup := by
  match fields with
  | [] =>
    cases h
    exact List.forall_mem_nil _
  | .mk key value :: fields =>
    rw [RuleDef.ofFields?] at h
    obtain ⟨kind, -, h⟩ := Option.bind_eq_some_iff.1 h
    obtain ⟨others, hothers, h⟩ := Option.bind_eq_some_iff.1 h
    have hnodup := RuleDef.nodup_of_ofFields? hothers
    split at h
    · cases h
      exact hnodup
    · obtain ⟨patterns, hpatterns, h⟩ := Option.bind_eq_some_iff.1 h
      cases h
      rw [RuleDef.inner, List.forall_mem_append]
      exact ⟨RuleDef.nodup_of_patterns? hpatterns, hnodup⟩

theorem RuleDef.nodup_of_patterns? {value : Datum} {patterns : List PatternDef}
    (h : RuleDef.patterns? value = some patterns) :
    ∀ e ∈ PatternDef.inner patterns, e.kinds.Nodup := by
  match value with
  | .text source =>
    cases h
    exact List.forall_mem_nil _
  | .record fields =>
    rw [RuleDef.patterns?] at h
    obtain ⟨head, -, h⟩ := Option.bind_eq_some_iff.1 h
    obtain ⟨inside, hinside, h⟩ := Option.bind_eq_some_iff.1 h
    cases h
    rw [PatternDef.inner, PatternDef.inner, List.append_nil]
    exact InsideDef.nodup_of_ofFields? hinside
  | .list items =>
    rw [RuleDef.patterns?] at h
    exact PatternDef.nodup_of_ofItems? h
  | .null | .bool _ | .natural _ | .number _ => contradiction

theorem PatternDef.nodup_of_ofItems? {items : List Datum} {patterns : List PatternDef}
    (h : PatternDef.ofItems? items = some patterns) :
    ∀ e ∈ PatternDef.inner patterns, e.kinds.Nodup := by
  match items with
  | [] =>
    cases h
    exact List.forall_mem_nil _
  | item :: items =>
    rw [PatternDef.ofItems?] at h
    obtain ⟨first, hfirst, h⟩ := Option.bind_eq_some_iff.1 h
    obtain ⟨others, hothers, h⟩ := Option.bind_eq_some_iff.1 h
    cases h
    obtain ⟨head, inside⟩ := first
    rw [PatternDef.inner, List.forall_mem_append]
    exact ⟨PatternDef.nodup_of_ofDatum? hfirst, PatternDef.nodup_of_ofItems? hothers⟩

theorem PatternDef.nodup_of_ofDatum? {value : Datum} {pattern : PatternDef}
    (h : PatternDef.ofDatum? value = some pattern) :
    ∀ e ∈ pattern.inside.inner, e.kinds.Nodup := by
  match value with
  | .text source =>
    cases h
    exact List.forall_mem_nil _
  | .record fields =>
    rw [PatternDef.ofDatum?] at h
    obtain ⟨head, -, h⟩ := Option.bind_eq_some_iff.1 h
    obtain ⟨inside, hinside, h⟩ := Option.bind_eq_some_iff.1 h
    cases h
    exact InsideDef.nodup_of_ofFields? hinside
  | .null | .bool _ | .natural _ | .number _ | .list _ => contradiction

theorem InsideDef.nodup_of_ofFields? {fields : List Field} {inside : InsideDef}
    (h : InsideDef.ofFields? fields = some inside) :
    ∀ e ∈ inside.inner, e.kinds.Nodup := by
  match fields with
  | [] =>
    cases h
    exact List.forall_mem_nil _
  | .mk key value :: fields =>
    rw [InsideDef.ofFields?] at h
    split at h
    · exact InsideDef.nodup_of_ofDatum? h
    · exact InsideDef.nodup_of_ofFields? h

theorem InsideDef.nodup_of_ofDatum? {value : Datum} {inside : InsideDef}
    (h : InsideDef.ofDatum? value = some inside) : ∀ e ∈ inside.inner, e.kinds.Nodup := by
  match value with
  | .null | .text _ =>
    cases h
    exact List.forall_mem_nil _
  | .record fields =>
    rw [InsideDef.ofDatum?] at h
    obtain ⟨rest, -, h⟩ := Option.bind_eq_some_iff.1 h
    obtain ⟨rules, hrules, h⟩ := Option.bind_eq_some_iff.1 h
    cases h
    exact GrammarDef.distinct_ofRules (RuleDef.nodup_of_ofFields? hrules) rest
  | .bool _ | .natural _ | .number _ | .list _ => contradiction

end

/-- A definition that has been read is one that tables can hold, at any depth. -/
theorem GrammarDef.distinct_of_read {format : DataFormat} {source : String} {d : GrammarDef}
    (h : GrammarDef.read format source = .ok d) : d.Distinct := by
  have hdatum : ∀ value? : Option Datum, ofDatum value? = .ok d → d.Distinct := by
    intro value? hvalue
    cases value? with
    | none => contradiction
    | some value =>
      rw [ofDatum, Option.bind_some] at hvalue
      cases hread : ofDatum? value with
      | none =>
        rw [hread] at hvalue
        contradiction
      | some read =>
        rw [hread] at hvalue
        cases hvalue
        exact distinct_of_ofDatum? hread
  cases format with
  | json => exact hdatum _ h
  | yaml => exact hdatum _ h

end SyntaxHue
