import SyntaxHue.Proofs.Tokenizer.Unbounded

/-!
# Which tokenizations end

The grammars that a grammar hands texts on to form a graph. A tokenization ends if there is no cycle
in the part of the graph that it can reach, or if a text gets shorter wherever a cycle is entered
again. On the way down the number of grammars that can still be reached never grows, and where it
stays the same the step is on a cycle.
-/

namespace SyntaxHue

open Tokenizer

namespace Tokenizer

/-- What a level comes to depends on its inner grammars only as far as texts are handed on. -/
theorem Level.run_congr {l k : Level} {text : List Char} (hbytes : k.bytes = l.bytes)
    (hrules : k.rules = l.rules)
    (hinner : ∀ c ∈ l.rules, ∀ g offset matched, c.pattern.inside = some g →
      c.pattern.FoundAt text offset matched → l.inner g matched = k.inner g matched) :
    l.run text = k.run text := by
  have hup : Level.Under text l k :=
    ⟨hbytes, hrules, fun c hc g offset matched hinside hfound =>
      Or.inr (hinner c hc g offset matched hinside hfound)⟩
  have hdown : Level.Under text k l :=
    ⟨hbytes.symm, hrules.symm, fun c hc g offset matched hinside hfound =>
      Or.inr (hinner c (hrules ▸ hc) g offset matched hinside hfound).symm⟩
  exact hup.run.antisymm hdown.run

end Tokenizer

namespace Store

/-- Tokenizing a text with a grammar comes to an end with `r`: so does every text that is handed on
    to another grammar, and the level itself. -/
inductive Ends (s : Store) : GrammarId → List Char → Except Fault (List Node) → Prop where
  | level {grammar : GrammarId} {text : List Char}
      {inner : GrammarId → List Char → Except Fault (List Node)} {r : Except Fault (List Node)} :
      (∀ g matched, s.HandsOn (grammar, text) (g, matched) → Ends s g matched (inner g matched)) →
      Level.Ends ⟨byteLength text, candidates (s.effectiveRules grammar), inner⟩ text r →
      Ends s grammar text r

variable {s : Store} {grammar : GrammarId} {text : List Char}

/-- The level of a grammar over a text, with whole tokenizations for what it hands on. -/
def levelOf (s : Store) (grammar : GrammarId) (text : List Char) : Level :=
  ⟨byteLength text, candidates (s.effectiveRules grammar), fun g matched =>
    s.tokenize (String.ofList matched) g⟩

theorem handsOn_of_mem {c : Candidate} {g : GrammarId} {offset : Nat} {matched : List Char}
    (hc : c ∈ candidates (s.effectiveRules grammar)) (hinside : c.pattern.inside = some g)
    (hfound : c.pattern.FoundAt text offset matched) :
    s.HandsOn (grammar, text) (g, matched) := by
  obtain ⟨rule, hrule, -, hp⟩ := mem_candidates.1 hc
  exact ⟨rule, hrule, c.pattern, hp, hinside, offset, hfound⟩

/-- A tokenization is the level of its grammar over its text. -/
theorem tokenize_eq_run :
    s.tokenize (String.ofList text) grammar = (s.levelOf grammar text).run text := by
  rw [tokenize, String.toList_ofList, utf8ByteSize_ofList, depthFor, nested_succ]
  refine Level.run_congr rfl rfl ?_
  intro c hc g offset matched hinside hfound
  dsimp only [levelAt, levelOf]
  rw [nested_of_isInfix hfound.isInfix, tokenize, String.toList_ofList, utf8ByteSize_ofList]

/-- Where no text that is handed on is tokenized without end, the whole is not. -/
theorem tokenize_ne_endless (h : ∀ g matched, s.HandsOn (grammar, text) (g, matched) →
      s.tokenize (String.ofList matched) g ≠ .error .endless) :
    s.tokenize (String.ofList text) grammar ≠ .error .endless := by
  rw [tokenize_eq_run]
  intro hendless
  obtain ⟨c, hc, hblames | ⟨g, offset, matched, hinside, hfound, hinner⟩⟩ :=
    Level.fails_of_run hendless
  · exact hblames.ne_endless rfl
  · exact h g matched (handsOn_of_mem hc hinside hfound) hinner

/-- A tokenization comes to an end, and to one end only, if no text is handed on for ever. -/
theorem ends_iff_of_acc {x : GrammarId × List Char} (h : Acc (fun y x => s.HandsOn x y) x) :
    s.tokenize (String.ofList x.2) x.1 ≠ .error .endless ∧
      ∀ r, s.Ends x.1 x.2 r ↔ r = s.tokenize (String.ofList x.2) x.1 := by
  induction h with
  | intro x _ ih =>
    obtain ⟨grammar, text⟩ := x
    have hends := tokenize_ne_endless fun g matched hy => (ih (g, matched) hy).1
    refine ⟨hends, fun r => ?_⟩
    constructor
    · rintro ⟨hinner, hlevel⟩
      rw [Level.ends_iff.1 hlevel, tokenize_eq_run]
      refine Level.run_congr rfl rfl ?_
      intro c hc g offset matched hinside hfound
      have hy := handsOn_of_mem hc hinside hfound
      exact ((ih (g, matched) hy).2 _).1 (hinner g matched hy)
    · intro hr
      refine @Ends.level s grammar text (s.levelOf grammar text).inner r ?_ ?_
      · intro g matched hy
        exact ((ih (g, matched) hy).2 _).2 rfl
      · exact Level.ends_iff.2 (hr.trans tokenize_eq_run)

/-- The grammar `y` is inside a pattern `p` of the grammar `x`. -/
def Refers (s : Store) (p : Pattern) (x y : GrammarId) : Prop :=
  ∃ rule ∈ (s.effectiveRules x).entries, p ∈ rule.2 ∧ p.inside = some y

/-- The edges of the graph of grammars. -/
def Leads (s : Store) (x y : GrammarId) : Prop :=
  ∃ p, s.Refers p x y

/-- No cycle of the graph can be reached from a grammar. -/
def Acyclic (s : Store) (grammar : GrammarId) : Prop :=
  ∀ x, Relation.ReflTransGen s.Leads grammar x → ¬ Relation.TransGen s.Leads x x

/-- Each pattern on a cycle, where it is applied to a text on the way down from a grammar and a
    text, finds only texts that are shorter than that text. -/
def Shrinks (s : Store) (grammar : GrammarId) (text : List Char) : Prop :=
  ∀ x level, Relation.ReflTransGen s.HandsOn (grammar, text) (x, level) →
    ∀ p y, s.Refers p x y → Relation.ReflTransGen s.Leads y x →
      ∀ offset matched, p.FoundAt level offset matched → byteLength matched < byteLength level

variable {x y : GrammarId × List Char}

theorem HandsOn.exists_refers (h : s.HandsOn x y) :
    ∃ p, s.Refers p x.1 y.1 ∧ ∃ offset, p.FoundAt x.2 offset y.2 := by
  obtain ⟨rule, hrule, p, hp, hinside, hfound⟩ := h
  exact ⟨p, ⟨rule, hrule, hp, hinside⟩, hfound⟩

theorem leads_of_handsOn (h : Relation.ReflTransGen s.HandsOn x y) :
    Relation.ReflTransGen s.Leads x.1 y.1 := by
  refine h.lift Prod.fst ?_
  intro x y hxy
  obtain ⟨p, hrefers, -⟩ := hxy.exists_refers
  exact ⟨p, hrefers⟩

/-- A cycle that cannot be reached makes no demands. -/
theorem Acyclic.shrinks (h : s.Acyclic grammar) (text : List Char) : s.Shrinks grammar text := by
  intro x level hreach p y hrefers hback
  have hcycle : Relation.TransGen s.Leads x x := .head' ⟨p, hrefers⟩ hback
  exact absurd hcycle (h x (leads_of_handsOn hreach))

open Classical in
/-- The grammars of the store that can be reached from a grammar. -/
noncomputable def reach (s : Store) (x : GrammarId) : Finset (Fin s.slots.size) :=
  Finset.univ.filter fun i => Relation.ReflTransGen s.Leads x ⟨i⟩

theorem mem_reach {x : GrammarId} {i : Fin s.slots.size} :
    i ∈ s.reach x ↔ Relation.ReflTransGen s.Leads x ⟨i⟩ := by
  simp [reach]

theorem reach_subset {x y : GrammarId} (h : s.Leads x y) : s.reach y ⊆ s.reach x := by
  intro i hi
  rw [mem_reach] at hi ⊢
  exact .head h hi

/-- A grammar that leads to another is one of the store. -/
theorem Leads.index_lt {x y : GrammarId} (h : s.Leads x y) : x.index < s.slots.size := by
  obtain ⟨p, rule, hrule, -, -⟩ := h
  by_contra hlt
  rw [effectiveRules_eq_empty (Nat.le_of_not_lt hlt)] at hrule
  simp [Table.empty] at hrule

/-- A step that is on no cycle leaves a grammar behind for good. -/
theorem card_reach_lt {x y : GrammarId} (h : s.Leads x y)
    (hback : ¬ Relation.ReflTransGen s.Leads y x) : (s.reach y).card < (s.reach x).card := by
  refine Finset.card_lt_card ((Finset.ssubset_iff_of_subset (reach_subset h)).2 ?_)
  refine ⟨⟨x.index, h.index_lt⟩, mem_reach.2 .refl, ?_⟩
  rw [mem_reach]
  exact hback

/-- With every text that is handed on, fewer grammars can be reached, or the text is shorter. -/
theorem Shrinks.lower (h : s.Shrinks grammar text)
    (hreach : Relation.ReflTransGen s.HandsOn (grammar, text) x) (hxy : s.HandsOn x y) :
    Prod.Lex (· < ·) (· < ·) ((s.reach y.1).card, byteLength y.2)
      ((s.reach x.1).card, byteLength x.2) := by
  obtain ⟨p, hrefers, offset, hfound⟩ := hxy.exists_refers
  have hleads : s.Leads x.1 y.1 := ⟨p, hrefers⟩
  by_cases hback : Relation.ReflTransGen s.Leads y.1 x.1
  · have hshorter := h x.1 x.2 hreach p y.1 hrefers hback offset y.2 hfound
    rcases Nat.lt_or_eq_of_le (Finset.card_le_card (reach_subset hleads)) with hlt | heq
    · exact .left _ _ hlt
    · rw [heq]
      exact .right _ hshorter
  · exact .left _ _ (card_reach_lt hleads hback)

theorem Shrinks.acc (h : s.Shrinks grammar text) :
    Acc (fun y x => s.HandsOn x y) (grammar, text) := by
  have hall : ∀ x, Relation.ReflTransGen s.HandsOn (grammar, text) x →
      Acc (fun y x => s.HandsOn x y) x := by
    intro x
    have hwf : WellFounded fun y x : GrammarId × List Char =>
        Prod.Lex (· < ·) (· < ·) ((s.reach y.1).card, byteLength y.2)
          ((s.reach x.1).card, byteLength x.2) :=
      InvImage.wf (fun x : GrammarId × List Char => ((s.reach x.1).card, byteLength x.2))
        (Prod.lex Nat.lt_wfRel Nat.lt_wfRel).wf
    induction x using hwf.induction with
    | _ x ih =>
      intro hreach
      exact .intro x fun y hxy => ih y (h.lower hreach hxy) (hreach.tail hxy)
  exact hall _ .refl

/-- A tokenization comes to one end, and not for want of levels, if no cycle of grammars can be
    reached or every pattern on a cycle makes the text shorter. A single level always ends. What is
    scanned again after a match of pattern `i` is `passes i`, in which the patterns from number `i`
    on have no part. -/
theorem ends_iff_of_acyclic_or_shrinks {text : String}
    (h : s.Acyclic grammar ∨ s.Shrinks grammar text.toList) :
    (∀ r, s.Ends grammar text.toList r ↔ r = s.tokenize text grammar) ∧
      s.tokenize text grammar ≠ .error .endless ∧
      (∀ (l : Level) (level : List Char) r, l.Ends level r ↔ r = l.run level) ∧
      ∀ (l : Level) (rules : Array Candidate) (i : Nat) (f : Frame),
        (∀ j < i, rules[j]? = l.rules[j]?) →
          ({ l with rules } : Level).passes i f = l.passes i f := by
  have hshrinks : s.Shrinks grammar text.toList := h.elim (fun hacyclic => hacyclic.shrinks _) id
  obtain ⟨hends, huniq⟩ := ends_iff_of_acc hshrinks.acc
  simp only [String.ofList_toList] at hends huniq
  exact ⟨huniq, hends, fun _ _ _ => Level.ends_iff,
    fun _ _ _ _ hrules => Level.passes_with_rules hrules⟩

/-- Whether each pattern of a store that has a grammar inside cuts some text off every match. -/
def alwaysCuts (s : Store) : Bool :=
  (List.range s.slots.size).all fun i =>
    (candidates (s.effectiveRules ⟨i⟩)).all fun c =>
      c.pattern.inside.isNone || c.pattern.tame && c.pattern.cuts

theorem shrinks_of_alwaysCuts (h : s.alwaysCuts = true) (grammar : GrammarId)
    (text : List Char) : s.Shrinks grammar text := by
  intro x level _ p y hrefers _ offset matched hfound
  have hindex : x.index < s.slots.size := Leads.index_lt ⟨p, hrefers⟩
  obtain ⟨rule, hrule, hp, hinside⟩ := hrefers
  simp only [alwaysCuts, List.all_eq_true, List.mem_range] at h
  have hall := Array.all_eq_true'.1 (h x.index hindex) ⟨rule.1, p⟩
    (mem_candidates.2 ⟨rule, hrule, rfl, hp⟩)
  simp only [hinside, Option.isNone_some, Bool.false_or, Bool.and_eq_true] at hall
  exact hfound.shorter hall.1 hall.2

/-- A grammar of nested lists: what follows an opening bracket is a list again. -/
def brackets : GrammarDef :=
  .ofRules [
    .mk "list" [.mk { source := "(\\()[\\s\\S]*", lookbehind := true, greedy := true }
      (.language "brackets")],
    .mk "nothing" [.plain "x*"]] none

/-- The store with the grammar `brackets`, which is inside itself. -/
def bracketed : Store :=
  match empty.define "brackets" brackets with
  | .ok (_, s) => s
  | .error _ => empty

theorem alwaysCuts_bracketed : bracketed.alwaysCuts = true := by
  decide +kernel

theorem ends_iff_bracketed :
    (bracketed.Acyclic ⟨0⟩ ∨ bracketed.Shrinks ⟨0⟩ "((a".toList) ∧
    (∀ r, bracketed.Ends ⟨0⟩ "((a".toList r ↔ r = bracketed.tokenize "((a" ⟨0⟩) ∧
      bracketed.tokenize "((a" ⟨0⟩ ≠ .error .endless := by
  have hshrinks := shrinks_of_alwaysCuts alwaysCuts_bracketed ⟨0⟩ "((a".toList
  have h := ends_iff_of_acyclic_or_shrinks (Or.inr hshrinks)
  exact ⟨Or.inr hshrinks, h.1, h.2.1⟩

end Store

end SyntaxHue
