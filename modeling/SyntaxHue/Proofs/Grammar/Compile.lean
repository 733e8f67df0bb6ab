import SyntaxHue.Proofs.Decoding
import SyntaxHue.Proofs.Grammar.Definition

/-!
# What a definition leaves in a store

A grammar that is defined inside another one gets a slot of its own, and the slot is taken before
what is inside the grammar is compiled. So the grammars of a definition lie behind each other in
the order in which they are written, and a store can be read back along a definition with nothing
but a running number.
-/

namespace SyntaxHue

/-! ### Reading a store along a definition -/

/-- A compiled pattern is what a definition says. -/
structure PatternHead.Describes (head : PatternHead) (p : Pattern) : Prop where
  source : p.source = head.source
  regex : Regex.compile head.source.toList = .ok p.regex
  mode : p.mode = if head.greedy then .input else .fragment
  lookbehind : p.lookbehind = head.lookbehind
  aliases : p.aliases = head.aliases

section

variable (slots : Array Grammar) (resolve : String → Option GrammarId)

mutual

/-- Slot `n` has the grammar of a definition, and the slots behind it have those that are defined
    inside it. -/
def GrammarDef.StoredAt (n : Nat) : GrammarDef → Prop
  | .mk rules rest =>
    ∃ g, slots[n]? = some g ∧ RuleDef.StoredFrom (n + 1) rules g.rules.entries ∧
      rest.map resolve = g.rest.map some

/-- The rules are those of a definition, in its order, and the slots from `n` on have the grammars
    that are defined inside them. -/
def RuleDef.StoredFrom (n : Nat) : List RuleDef → List (String × Rule) → Prop
  | [], [] => True
  | .mk kind patterns :: rules, entry :: entries =>
    entry.1 = kind ∧ PatternDef.StoredFrom n patterns entry.2 ∧
      RuleDef.StoredFrom (n + (PatternDef.inner patterns).length) rules entries
  | _, _ => False

/-- The patterns are those of a definition, in its order, and the slots from `n` on have the
    grammars that are defined inside them. -/
def PatternDef.StoredFrom (n : Nat) : List PatternDef → Rule → Prop
  | [], [] => True
  | .mk head inside :: patterns, p :: rule =>
    head.Describes p ∧ inside.StoredFrom n p.inside ∧
      PatternDef.StoredFrom (n + inside.inner.length) patterns rule
  | _, _ => False

/-- The inner grammar is none, or that of the language that is named, or the one in slot `n`, which
    is the one that is defined here. -/
def InsideDef.StoredFrom (n : Nat) : InsideDef → Option GrammarId → Prop
  | .none, id? => id? = none
  | .language name, id? => ∃ id, resolve name = some id ∧ id? = some id
  | .grammar d, id? => id? = some ⟨n⟩ ∧ d.StoredAt n

end

end

variable {slots : Array Grammar} {resolve : String → Option GrammarId}

mutual

/-- Reading a grammar in a store passes all that are defined inside it, each in its own slot. -/
theorem GrammarDef.StoredAt.inner {n k : Nat} {d e : GrammarDef}
    (h : d.StoredAt slots resolve n) (hk : d.inner[k]? = some e) :
    e.StoredAt slots resolve (n + 1 + k) := by
  match d with
  | .mk rules rest =>
    rw [GrammarDef.inner] at hk
    obtain ⟨g, -, hrules, -⟩ := h
    exact RuleDef.StoredFrom.inner hrules hk

theorem RuleDef.StoredFrom.inner {n k : Nat} {rules : List RuleDef}
    {entries : List (String × Rule)} {e : GrammarDef}
    (h : RuleDef.StoredFrom slots resolve n rules entries)
    (hk : (RuleDef.inner rules)[k]? = some e) : e.StoredAt slots resolve (n + k) := by
  match rules, entries with
  | [], _ => simp [RuleDef.inner] at hk
  | .mk kind patterns :: rules, [] => simp [RuleDef.StoredFrom] at h
  | .mk kind patterns :: rules, entry :: entries =>
    rw [RuleDef.inner] at hk
    obtain ⟨-, hpatterns, hrules⟩ := h
    rcases Nat.lt_or_ge k (PatternDef.inner patterns).length with hlt | hge
    · rw [List.getElem?_append_left hlt] at hk
      exact PatternDef.StoredFrom.inner hpatterns hk
    · rw [List.getElem?_append_right hge] at hk
      have hrest := RuleDef.StoredFrom.inner hrules hk
      rwa [Nat.add_assoc, Nat.add_sub_cancel' hge] at hrest

theorem PatternDef.StoredFrom.inner {n k : Nat} {patterns : List PatternDef} {rule : Rule}
    {e : GrammarDef} (h : PatternDef.StoredFrom slots resolve n patterns rule)
    (hk : (PatternDef.inner patterns)[k]? = some e) : e.StoredAt slots resolve (n + k) := by
  match patterns, rule with
  | [], _ => simp [PatternDef.inner] at hk
  | .mk head inside :: patterns, [] => simp [PatternDef.StoredFrom] at h
  | .mk head inside :: patterns, p :: rule =>
    rw [PatternDef.inner] at hk
    obtain ⟨-, hinside, hpatterns⟩ := h
    rcases Nat.lt_or_ge k inside.inner.length with hlt | hge
    · rw [List.getElem?_append_left hlt] at hk
      exact InsideDef.StoredFrom.inner hinside hk
    · rw [List.getElem?_append_right hge] at hk
      have hrest := PatternDef.StoredFrom.inner hpatterns hk
      rwa [Nat.add_assoc, Nat.add_sub_cancel' hge] at hrest

theorem InsideDef.StoredFrom.inner {n k : Nat} {inside : InsideDef} {id? : Option GrammarId}
    {e : GrammarDef} (h : inside.StoredFrom slots resolve n id?)
    (hk : inside.inner[k]? = some e) : e.StoredAt slots resolve (n + k) := by
  match inside with
  | .none => simp [InsideDef.inner] at hk
  | .language name => simp [InsideDef.inner] at hk
  | .grammar d =>
    rw [InsideDef.inner] at hk
    obtain ⟨-, hd⟩ := h
    cases k with
    | zero =>
      obtain rfl := Option.some.inj hk
      exact hd
    | succ k =>
      have hinner := GrammarDef.StoredAt.inner hd hk
      rwa [Nat.add_assoc, Nat.add_comm 1 k] at hinner

end

/-- Each grammar of a definition is in the slot with its number. -/
theorem GrammarDef.StoredAt.grammars {n k : Nat} {d e : GrammarDef}
    (h : d.StoredAt slots resolve n) (hk : d.grammars[k]? = some e) :
    e.StoredAt slots resolve (n + k) := by
  have hself : (InsideDef.grammar d).StoredFrom slots resolve n (some ⟨n⟩) := ⟨rfl, h⟩
  exact hself.inner hk

/-! ### Compiling -/

namespace Compiler

theorem exists_of_bind {α β : Type} {x : Except GrammarError α} {f : α → Except GrammarError β}
    {b : β} (h : x >>= f = .ok b) : ∃ a, x = .ok a ∧ f a = .ok b := by
  cases x with
  | error e => contradiction
  | ok a => exact ⟨a, rfl, h⟩

/-- Compiling has made `after` out of `before`: there are `count` slots more, those that were there
    are as they were, and any store that has the new ones behind `c.base` has `P`. -/
structure Lays (c : Compiler) (before after : Array Grammar) (count : Nat)
    (P : Array Grammar → Prop) : Prop where
  size : after.size = before.size + count
  kept : ∀ k < before.size, after[k]? = before[k]?
  stored : ∀ slots : Array Grammar,
    (∀ k, before.size ≤ k → k < after.size → slots[c.base + k]? = after[k]?) → P slots

namespace Lays

variable {c : Compiler} {before between after : Array Grammar} {m n : Nat}
  {P Q : Array Grammar → Prop}

theorem none (h : ∀ slots, P slots) : c.Lays before before 0 P :=
  ⟨rfl, fun _ _ => rfl, fun slots _ => h slots⟩

theorem mono (h : c.Lays before after n P) (hPQ : ∀ slots, P slots → Q slots) :
    c.Lays before after n Q :=
  ⟨h.size, h.kept, fun slots hslots => hPQ slots (h.stored slots hslots)⟩

theorem trans (hP : c.Lays before between m P) (hQ : c.Lays between after n Q) :
    c.Lays before after (m + n) fun slots => P slots ∧ Q slots := by
  have hsize : between.size = before.size + m := hP.size
  have hsize' : after.size = between.size + n := hQ.size
  refine ⟨by omega, fun k hk => ?_, fun slots hslots => ⟨?_, ?_⟩⟩
  · rw [hQ.kept k (by omega), hP.kept k hk]
  · refine hP.stored slots fun k hk hlt => ?_
    rw [hslots k hk (by omega), hQ.kept k hlt]
  · exact hQ.stored slots fun k hk hlt => hslots k (by omega) hlt

/-- A slot that is taken before and filled afterwards. -/
theorem slot (g : Grammar) (h : c.Lays (before.push default) after n P) :
    c.Lays before (after.setIfInBounds before.size g) (1 + n) fun slots =>
      slots[c.base + before.size]? = some g ∧ P slots := by
  have hsize : after.size = before.size + 1 + n := by simpa using h.size
  refine ⟨by simp; omega, fun k hk => ?_, fun slots hslots => ⟨?_, ?_⟩⟩
  · rw [Array.getElem?_setIfInBounds_ne (by omega), h.kept k (by simp; omega),
      Array.getElem?_push_lt hk, Array.getElem?_eq_getElem hk]
  · rw [hslots before.size (Nat.le_refl _) (by simp; omega)]
    exact Array.getElem?_setIfInBounds_self_of_lt (by omega)
  · refine h.stored slots fun k hk hlt => ?_
    rw [Array.size_push] at hk
    rw [hslots k (by omega) (by simpa using hlt), Array.getElem?_setIfInBounds_ne (by omega)]

end Lays

variable {c : Compiler}

theorem resolve_of_language {name : String} {id : GrammarId} (h : c.language name = .ok id) :
    c.resolve name = some id := by
  rw [language] at h
  cases hresolve : c.resolve name with
  | none => rw [hresolve] at h; contradiction
  | some found => rw [hresolve] at h; rw [Except.ok.inj h]

theorem resolve_of_rest {next : Option String} {id? : Option GrammarId}
    (h : c.rest next = .ok id?) : next.map c.resolve = id?.map some := by
  cases next with
  | none => rw [← Except.ok.inj h]; rfl
  | some name =>
    rw [rest] at h
    cases hlanguage : c.language name with
    | error e => rw [hlanguage] at h; contradiction
    | ok id =>
      rw [hlanguage] at h
      rw [← Except.ok.inj h]
      exact congrArg some (resolve_of_language hlanguage)

theorem describes_assemble {kind : String} {head : PatternHead} {r : Regex}
    {inside : Option GrammarId} (h : regex kind head.source = .ok r) :
    head.Describes (assemble head r inside) := by
  refine ⟨rfl, ?_, rfl, rfl, rfl⟩
  rw [regex_eq] at h
  cases hcompile : Regex.compile head.source.toList with
  | error cause => rw [hcompile] at h; contradiction
  | ok compiled => rw [hcompile] at h; rw [Except.ok.inj h]; rfl

theorem kind_of_rule {before after : Array Grammar} {d : RuleDef} {entry : String × Rule}
    (h : c.rule before d = .ok (entry, after)) :
    entry.1 = d.kind ∧ ∃ kind, c.patterns before kind d.patterns = .ok (entry.2, after) := by
  match d with
  | .mk kind [] => rw [rule] at h; contradiction
  | .mk kind (first :: more) =>
    rw [rule] at h
    · obtain ⟨⟨rule, between⟩, hpatterns, heq⟩ := exists_of_bind h
      cases heq
      exact ⟨rfl, kind, hpatterns⟩
    · simp

theorem kinds_of_rules {before after : Array Grammar} {rules : List RuleDef}
    {entries : List (String × Rule)}
    (h : c.rules before rules = .ok (entries, after)) :
    entries.map Prod.fst = rules.map RuleDef.kind := by
  induction rules generalizing before entries with
  | nil => cases h; rfl
  | cons first more ih =>
    rw [Compiler.rules] at h
    obtain ⟨⟨entry, between⟩, hrule, h⟩ := exists_of_bind h
    obtain ⟨⟨others, last⟩, hrules, h⟩ := exists_of_bind h
    cases h
    rw [List.map_cons, List.map_cons, (kind_of_rule hrule).1, ih hrules]

mutual

/-- A definition is compiled into the next slot, and what is defined inside it into those behind
    it. -/
theorem grammar_lays {before after : Array Grammar} {d : GrammarDef} {id : GrammarId}
    (hdistinct : d.Distinct)
    (h : c.grammar before d = .ok (id, after)) :
    id = ⟨c.base + before.size⟩ ∧ c.Lays before after d.grammars.length fun slots =>
      d.StoredAt slots c.resolve (c.base + before.size) := by
  match d with
  | .mk rules next =>
    rw [grammar] at h
    obtain ⟨⟨entries, between⟩, hrules, h⟩ := exists_of_bind h
    obtain ⟨next, hrest, h⟩ := exists_of_bind h
    cases h
    obtain ⟨hkinds, hinner⟩ := List.forall_mem_cons.1 hdistinct
    have hentries : (Table.ofList entries).entries = entries := by
      refine Table.entries_ofList ?_
      rw [kinds_of_rules hrules]
      exact hkinds
    refine ⟨rfl, ?_⟩
    -- the slot was taken before the rules were compiled, so theirs start one further on
    rw [GrammarDef.grammars, List.length_cons, Nat.add_comm]
    refine ((rules_lays hinner hrules).slot ⟨.ofList entries, next⟩).mono fun slots hslots => ?_
    obtain ⟨hslot, hrules⟩ := hslots
    rw [Array.size_push, ← Nat.add_assoc, ← hentries] at hrules
    exact ⟨_, hslot, hrules, resolve_of_rest hrest⟩

theorem rules_lays {before after : Array Grammar} {rules : List RuleDef}
    {entries : List (String × Rule)}
    (hdistinct : ∀ e ∈ RuleDef.inner rules, e.kinds.Nodup)
    (h : c.rules before rules = .ok (entries, after)) :
    c.Lays before after (RuleDef.inner rules).length fun slots =>
      RuleDef.StoredFrom slots c.resolve (c.base + before.size) rules entries := by
  match rules with
  | [] =>
    cases h
    exact .none fun slots => trivial
  | .mk kind patterns :: rules =>
    rw [Compiler.rules] at h
    obtain ⟨⟨entry, between⟩, hrule, h⟩ := exists_of_bind h
    obtain ⟨⟨entries, last⟩, hrules, h⟩ := exists_of_bind h
    cases h
    rw [RuleDef.inner, List.forall_mem_append] at hdistinct
    obtain ⟨hkind, name, hpatterns⟩ := kind_of_rule hrule
    have hfirst := patterns_lays hdistinct.1 hpatterns
    rw [RuleDef.inner, List.length_append]
    refine (hfirst.trans (rules_lays hdistinct.2 hrules)).mono fun slots hslots => ?_
    obtain ⟨hpatterns, hrules⟩ := hslots
    rw [hfirst.size, ← Nat.add_assoc] at hrules
    exact ⟨hkind, hpatterns, hrules⟩

theorem patterns_lays {before after : Array Grammar} {kind : String} {patterns : List PatternDef}
    {rule : Rule} (hdistinct : ∀ e ∈ PatternDef.inner patterns, e.kinds.Nodup)
    (h : c.patterns before kind patterns = .ok (rule, after)) :
    c.Lays before after (PatternDef.inner patterns).length fun slots =>
      PatternDef.StoredFrom slots c.resolve (c.base + before.size) patterns rule := by
  match patterns with
  | [] =>
    cases h
    exact .none fun slots => trivial
  | .mk head inside :: patterns =>
    rw [Compiler.patterns, pattern] at h
    obtain ⟨⟨p, between⟩, hpattern, h⟩ := exists_of_bind h
    obtain ⟨⟨rule, last⟩, hpatterns, h⟩ := exists_of_bind h
    cases h
    obtain ⟨r, hregex, hpattern⟩ := exists_of_bind hpattern
    obtain ⟨⟨id?, last⟩, hinside, hpattern⟩ := exists_of_bind hpattern
    cases hpattern
    rw [PatternDef.inner, List.forall_mem_append] at hdistinct
    have hfirst := inside_lays hdistinct.1 hinside
    rw [PatternDef.inner, List.length_append]
    refine (hfirst.trans (patterns_lays hdistinct.2 hpatterns)).mono fun slots hslots => ?_
    obtain ⟨hinside, hpatterns⟩ := hslots
    rw [hfirst.size, ← Nat.add_assoc] at hpatterns
    exact ⟨describes_assemble hregex, hinside, hpatterns⟩

theorem inside_lays {before after : Array Grammar} {inside : InsideDef}
    {id? : Option GrammarId} (hdistinct : ∀ e ∈ inside.inner, e.kinds.Nodup)
    (h : c.inside before inside = .ok (id?, after)) :
    c.Lays before after inside.inner.length fun slots =>
      inside.StoredFrom slots c.resolve (c.base + before.size) id? := by
  match inside with
  | .none =>
    cases h
    exact .none fun slots => rfl
  | .language name =>
    rw [Compiler.inside] at h
    obtain ⟨id, hlanguage, h⟩ := exists_of_bind h
    cases h
    exact .none fun slots => ⟨id, resolve_of_language hlanguage, rfl⟩
  | .grammar d =>
    rw [Compiler.inside] at h
    obtain ⟨⟨id, last⟩, hgrammar, h⟩ := exists_of_bind h
    cases h
    obtain ⟨hid, hlays⟩ := grammar_lays hdistinct hgrammar
    exact hlays.mono fun slots hslots => ⟨congrArg some hid, hslots⟩

end

end Compiler

/-! ### Defining a language -/

namespace Store

/-- Defining a language puts its grammars behind those that are there, in the order in which they
    are written, and each of them is what its definition says: an inner grammar that is named is
    the one that the name had before, or the new one for the name that is being defined. -/
theorem storedAt_of_define {s t : Store} {name : String} {d : GrammarDef} {root : GrammarId}
    (hdistinct : d.Distinct) (h : s.define name d = .ok (root, t)) :
    root.index = s.slots.size ∧ t.slots.size = s.slots.size + (1 + d.inner.length) ∧
      (∀ k < s.slots.size, t.slots[k]? = s.slots[k]?) ∧
      t.languages = s.languages.put name root ∧
      ∀ k (e : GrammarDef), d.grammars[k]? = some e →
        e.StoredAt t.slots (fun key => if key = name then some root else s.get? key)
          (root.index + k) := by
  rw [define] at h
  obtain ⟨⟨id, new⟩, hgrammar, h⟩ := Compiler.exists_of_bind h
  cases h
  obtain ⟨rfl, hlays⟩ := Compiler.grammar_lays hdistinct hgrammar
  have hsize : new.size = 1 + d.inner.length := by
    rw [hlays.size, GrammarDef.grammars, List.length_cons, Array.size_empty]
    omega
  refine ⟨rfl, ?_, fun k hk => ?_, rfl, fun k e hk => ?_⟩
  · rw [Array.size_append, hsize]
  · exact Array.getElem?_append_left hk
  · have hstored := hlays.stored (s.slots ++ new) fun k _ _ => by
      rw [compilerFor, Array.getElem?_append_right (by simp), Nat.add_sub_cancel_left]
    exact hstored.grammars hk

/-- Lists with lists in them, and texts that are left to another language. -/
def nestedLists : GrammarDef :=
  .ofRules [
    .mk "list" [.mk ⟨"\\[.*\\]", true, false, ["nested"]⟩ (.grammar (.ofRules [
      .mk "bracket" [.plain "^\\[", .plain "\\]$"],
      .mk "item" [.mk ⟨"(\\w)=.*", false, true, []⟩ (.language "lists")]] (some "text")))],
    .mk "comment" [.mk ⟨"#.*", false, false, []⟩ (.grammar (.ofRules [] none))]] (some "lists")

/-- A store whose first slot is the language that `nestedLists` names. -/
def plainText : Store :=
  ⟨#[default], Table.empty.put "text" ⟨0⟩⟩

theorem storedAt_of_define_nestedLists : ∃ root t, nestedLists.Distinct ∧
    plainText.define "lists" nestedLists = .ok (root, t) ∧ root.index = 1 ∧ t.slots.size = 4 ∧
      nestedLists.StoredAt t.slots
        (fun key => if key = "lists" then some root else plainText.get? key) 1 := by
  have hdistinct : nestedLists.Distinct := by
    refine GrammarDef.distinct_ofRules ?_ _
    decide +kernel
  have hok : (plainText.define "lists" nestedLists).isOk := by decide +kernel
  cases h : plainText.define "lists" nestedLists with
  | error e => rw [h] at hok; contradiction
  | ok out =>
    obtain ⟨root, t⟩ := out
    obtain ⟨hroot, hsize, -, -, hstored⟩ := storedAt_of_define hdistinct h
    have hroot : root.index = 1 := hroot
    have hinner : nestedLists.inner.length = 2 := by decide +kernel
    refine ⟨root, t, hdistinct, rfl, hroot, ?_, ?_⟩
    · rw [hsize, hinner]
      rfl
    · have hlists := hstored 0 nestedLists rfl
      rwa [hroot] at hlists

end Store

end SyntaxHue
