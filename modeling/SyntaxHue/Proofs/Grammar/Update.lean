import SyntaxHue.Proofs.Grammar.Reachable

/-!
# What an update leaves alone

Two stores that agree on grammars from which no others can be reached tokenize alike with them,
however many slots they have beside those. To register a name agrees with the old store on all of its
grammars, and to rebuild a grammar on all from which that one cannot be reached.
-/

namespace SyntaxHue

open Tokenizer

namespace Store

variable {s t : Store} {id : GrammarId} {P : GrammarId → Prop}

/-- The stores apply the same rules with the grammars in `P`, and those lead to grammars in `P`
    alone. -/
structure AgreeOn (s t : Store) (P : GrammarId → Prop) : Prop where
  rules_eq : ∀ id, P id → t.effectiveRules id = s.effectiveRules id
  leads : ∀ id inner, P id → s.Leads id inner → P inner

theorem AgreeOn.nested_eq (h : s.AgreeOn t P) (depth : Nat) {text : List Char} (hid : P id) :
    nested t depth id text = nested s depth id text := by
  induction depth generalizing id text with
  | zero => rfl
  | succ depth ih =>
    rw [nested_succ, nested_succ]
    refine Level.run_congr rfl ?_ ?_
    · rw [levelAt, levelAt, h.rules_eq id hid]
    · intro c hc inner offset matched hinside _
      rw [levelAt, h.rules_eq id hid] at hc
      obtain ⟨entry, hentry, -, hp⟩ := mem_candidates.1 hc
      exact ih (h.leads id inner hid ⟨c.pattern, entry, hentry, hp, hinside⟩)

/-- More slots allow for more levels, which change nothing. -/
theorem AgreeOn.tokenize_eq (h : s.AgreeOn t P) (hsize : s.slots.size ≤ t.slots.size)
    (text : String) (hid : P id) : t.tokenize text id = s.tokenize text id := by
  have hdepth : depthFor s text.utf8ByteSize ≤ depthFor t text.utf8ByteSize := by
    rw [depthFor, depthFor]
    exact Nat.add_le_add_right (Nat.mul_le_mul_left _ (Nat.add_le_add_right hsize 1)) 1
  obtain ⟨more, hmore⟩ := Nat.exists_eq_add_of_le hdepth
  have hbytes : byteLength text.toList ≤ text.utf8ByteSize := Nat.le_of_eq (byteLength_toList text)
  calc t.tokenize text id
      = nested s (depthFor t text.utf8ByteSize) id text.toList := h.nested_eq _ hid
    _ = nested s (depthFor s text.utf8ByteSize + more) id text.toList := by rw [hmore]
    _ = s.tokenize text id := nested_add (lt_depthFor hbytes) more

/-- A grammar refers to another in a pattern that it applies, or as the one whose rules come after
    its own. -/
def Uses (s : Store) (x y : GrammarId) : Prop :=
  s.Leads x y ∨ ∃ g, s.grammar? x = some g ∧ g.rest = some y

/-! ### Names -/

theorem get?_put (languages : Table GrammarId) (slots : Array Grammar) (name other : String)
    (root : GrammarId) : (Store.mk slots (languages.put name root)).get? other =
      if name = other then some root else (Store.mk slots languages).get? other :=
  Table.get?_put languages name other root

/-- To register `name` changes nothing but what the name stands for. -/
structure RegistersOnly (s : Store) (name : String) (answer : Option GrammarId) (t : Store) :
    Prop where
  named : answer.isSome ∧ t.get? name = answer
  others : ∀ other, other ≠ name → t.get? other = s.get? other
  grammars : ∀ id : GrammarId, id.index < s.slots.size → t.grammar? id = s.grammar? id
  tokenize_eq : ∀ id : GrammarId, id.index < s.slots.size →
    ∀ text, t.tokenize text id = s.tokenize text id

theorem grammar?_append {pending : Array Grammar} {languages : Table GrammarId}
    (h : id.index < s.slots.size) :
    (Store.mk (s.slots ++ pending) languages).grammar? id = s.grammar? id :=
  Array.getElem?_append_left h

/-- Slots behind those of a store do not change what its own grammars apply. -/
theorem Closed.effectiveRules_append (hs : s.Closed) {pending : Array Grammar}
    {languages : Table GrammarId} (h : id.index < s.slots.size) :
    (Store.mk (s.slots ++ pending) languages).effectiveRules id = s.effectiveRules id := by
  rw [effectiveRules, effectiveRules, grammar?_append h]
  cases hg : s.grammar? id with
  | none => rfl
  | some g =>
    dsimp only
    cases hrest : g.rest with
    | none => rfl
    | some rest =>
      have hlt := (hs.slots g (mem_of_grammar? hg)).rest rest hrest
      dsimp only
      rw [Store.rules, Store.rules, grammar?_append hlt]

theorem Registers.only {name : String} {root : GrammarId} {pending : Array Grammar}
    (h : s.Registers name root pending t) (hs : s.Closed) :
    s.RegistersOnly name (some root) t := by
  obtain ⟨rfl, -, -⟩ := h
  refine ⟨⟨rfl, ?_⟩, ?_, fun id hid => grammar?_append hid, ?_⟩
  · rw [get?_put, if_pos rfl]
  · intro other hother
    rw [get?_put, if_neg (Ne.symm hother)]
    rfl
  · intro id hid text
    have hagree : s.AgreeOn ⟨s.slots ++ pending, s.languages.put name root⟩
        fun id => id.index < s.slots.size := by
      refine ⟨fun id hid => hs.effectiveRules_append hid, ?_⟩
      rintro id inner _ ⟨p, entry, hentry, hp, hinside⟩
      exact hs.inside_lt hentry hp hinside
    refine hagree.tokenize_eq ?_ text hid
    rw [Array.size_append]
    exact Nat.le_add_right _ _

/-! ### Rules -/

/-- To rebuild `target` with `compiled` before a kind changes the rules of that grammar alone, and
    whatever stands for it stands for the new rules. -/
structure RebuildsOnly (s : Store) (target : GrammarId) (before : String) (d : GrammarDef)
    (compiled : List (String × Rule)) (t : Store) : Prop where
  compiled_eq : ∃ pending, s.compiler.rules #[] d.rules = .ok (compiled, pending)
  rebuilt : ∃ g, s.grammar? target = some g ∧
    t.grammar? target = some { g with rules := spliceBefore before (.ofList compiled) g.rules }
  languages : t.languages = s.languages
  others : ∀ id : GrammarId, id.index < s.slots.size → id ≠ target → t.grammar? id = s.grammar? id
  seen_by_name : ∀ name, s.get? name = some target → ∃ id, t.get? name = some id ∧
    t.rules id = spliceBefore before (.ofList compiled) (s.rules target)
  seen_inside : ∀ id, id ≠ target → ∀ entry ∈ (s.rules id).entries, ∀ p ∈ entry.2,
    p.inside = some target → entry ∈ (t.rules id).entries ∧
      p.inside.map t.rules = some (spliceBefore before (.ofList compiled) (s.rules target))
  seen_in_rest : ∀ id g, id ≠ target → s.grammar? id = some g → g.rest = some target →
    t.effectiveRules id =
      g.rules.putAll (spliceBefore before (.ofList compiled) (s.rules target)).entries
  tokenize_eq : ∀ id : GrammarId, id.index < s.slots.size →
    ¬ Relation.ReflTransGen s.Uses id target → ∀ text, t.tokenize text id = s.tokenize text id

section Rebuild

variable {target : GrammarId} {pending : Array Grammar} {f : Grammar → Grammar}
  {languages : Table GrammarId}

/-- The store with more slots, and with one of its own changed. -/
def rebuild (s : Store) (target : GrammarId) (pending : Array Grammar) (f : Grammar → Grammar) :
    Store :=
  { s with slots := (s.slots ++ pending).modify target.index f }

theorem grammar?_rebuild_self (h : target.index < s.slots.size) :
    (s.rebuild target pending f).grammar? target = (s.grammar? target).map f := by
  rw [rebuild, grammar?, grammar?, Array.getElem?_modify, if_pos rfl, Array.getElem?_append_left h]

theorem grammar?_rebuild (h : id.index < s.slots.size) (hne : id ≠ target) :
    (s.rebuild target pending f).grammar? id = s.grammar? id := by
  have hindex : target.index ≠ id.index := by
    intro heq
    exact hne (congrArg GrammarId.mk heq.symm)
  rw [rebuild, grammar?, grammar?, Array.getElem?_modify, if_neg hindex,
    Array.getElem?_append_left h]

theorem rules_rebuild (h : id.index < s.slots.size) (hne : id ≠ target) :
    (s.rebuild target pending f).rules id = s.rules id := by
  rw [rules, rules, grammar?_rebuild h hne]

/-- Grammars that do not use the changed one apply what they did. -/
theorem Closed.agreeOn_rebuild (hs : s.Closed) :
    s.AgreeOn (s.rebuild target pending f) fun id =>
      id.index < s.slots.size ∧ ¬ Relation.ReflTransGen s.Uses id target := by
  refine ⟨?_, ?_⟩
  · rintro id ⟨hid, hnot⟩
    have hne : id ≠ target := by
      rintro rfl
      exact hnot .refl
    rw [effectiveRules, effectiveRules, grammar?_rebuild hid hne]
    cases hg : s.grammar? id with
    | none => rfl
    | some g =>
      dsimp only
      cases hrest : g.rest with
      | none => rfl
      | some rest =>
        have hlt := (hs.slots g (mem_of_grammar? hg)).rest rest hrest
        have huses : s.Uses id rest := Or.inr ⟨g, hg, hrest⟩
        have hne' : rest ≠ target := by
          rintro rfl
          exact hnot (.single huses)
        dsimp only
        rw [rules_rebuild hlt hne']
  · rintro id inner ⟨-, hnot⟩ hleads
    obtain ⟨p, entry, hentry, hp, hinside⟩ := hleads
    refine ⟨hs.inside_lt hentry hp hinside, ?_⟩
    intro hreach
    exact hnot (.head (Or.inl ⟨p, entry, hentry, hp, hinside⟩) hreach)

theorem lt_of_mem_rules {entry : String × Rule} (h : entry ∈ (s.rules id).entries) :
    id.index < s.slots.size := by
  cases hg : s.grammar? id with
  | none =>
    rw [rules, hg] at h
    simp [Table.empty] at h
  | some g => exact lt_of_grammar? hg

end Rebuild

theorem Rebuilds.only {target : GrammarId} {before : String} {d : GrammarDef}
    {compiled : List (String × Rule)} {pending : Array Grammar}
    (h : s.Rebuilds target before d compiled pending t) (hs : s.Closed) :
    s.RebuildsOnly target before d compiled t := by
  obtain ⟨hcompiled, rfl, htarget, -, -⟩ := h
  let f : Grammar → Grammar := fun g =>
    { g with rules := spliceBefore before (.ofList compiled) (s.rules target) }
  change s.RebuildsOnly target before d compiled (s.rebuild target pending f)
  obtain ⟨g, hg⟩ := exists_grammar? htarget
  have hself : (s.rebuild target pending f).grammar? target = some (f g) := by
    rw [grammar?_rebuild_self htarget, hg]
    rfl
  have hrules : (s.rebuild target pending f).rules target =
      spliceBefore before (.ofList compiled) (s.rules target) := by
    rw [Store.rules, hself]
  have hown : s.rules target = g.rules := rules_of_grammar? hg
  refine ⟨⟨pending, hcompiled⟩, ⟨g, hg, ?_⟩, rfl, ?_, ?_, ?_, ?_, ?_⟩
  · rw [hself, ← hown]
  · intro id hid hne
    exact grammar?_rebuild hid hne
  · intro name hname
    exact ⟨target, hname, hrules⟩
  · intro id hne entry hentry p _ hinside
    refine ⟨?_, ?_⟩
    · rw [rules_rebuild (lt_of_mem_rules hentry) hne]
      exact hentry
    · rw [hinside, Option.map_some, hrules]
  · intro id other hne hother hrest
    rw [effectiveRules, grammar?_rebuild (lt_of_grammar? hother) hne, hother]
    dsimp only
    rw [hrest]
    dsimp only
    rw [hrules]
  · intro id hid hnot text
    refine hs.agreeOn_rebuild.tokenize_eq ?_ text ⟨hid, hnot⟩
    rw [rebuild, Array.size_modify, Array.size_append]
    exact Nat.le_add_right _ _

/-! ### Operations -/

theorem inserts_eq_none {op : Operation} {name : String} (h : op.registers = some name) :
    op.inserts s = none := by
  cases op with
  | insertBefore | insertBeforeLanguage | addInlined => simp [Operation.registers] at h
  | define | extend | extendAt | addAlias | load => rfl

theorem exists_of_isOk {r : Except GrammarError (Option GrammarId × Store)} (h : r.isOk = true) :
    ∃ answer t, r = .ok (answer, t) := by
  cases r with
  | error e => simp [Except.isOk, Except.toBool] at h
  | ok x => exact ⟨x.1, x.2, rfl⟩

end Store

end SyntaxHue
