import SyntaxHue.Proofs.Tame
import SyntaxHue.Proofs.Tokenizer.Depth
import SyntaxHue.Proofs.Tokenizer.Tree

/-!
# Tokenizing comes to an end

A scan ends by itself: each of its steps leaves a node behind it, and a level with more nodes than
bytes is not scanned on. The levels end if the texts that grammars hand on to each other do not go
on for ever. They do not if no grammar comes back to the text that it was given: a text that is
handed on is shorter, or else it is the same text, and then some patterns that could hand it on
are barred by what it begins with.
-/

namespace SyntaxHue

namespace Tokenizer

namespace Level

variable {l : Level} {text : List Char} {left done : List Node} {c : Candidate} {f : Frame}
  {again : Frame → Except Fault Frame} {changes : List Node → Frame → List Change} {n : Nat}

/-- A scan that has passed more nodes than there are bytes is at its end. -/
theorem step_of_length (hat : l.At text left f) (hdone : done.length ≤ left.length)
    (h : l.bytes < done.length) : l.step c f = .ok .finish := by
  have hcount := hat.count_eq
  rw [List.length_append] at hcount
  unfold step
  split
  · rfl
  · rw [if_pos]
    simp only [Bool.or_eq_true, decide_eq_true_eq]
    right
    omega

/-- Steps that a scan does not come to change nothing. -/
theorem scan_eq_succ (hc : c ∈ l.rules)
    (hagain : ∀ left f, l.At text left f →
      l.Traced text (left ++ f.nodes) left [] (again f) (changes left f))
    (hhead : ∀ f g t more, again f = .ok g → f.nodes = .token t :: more →
      ∃ rest, g.nodes = .token t :: rest)
    (hat : l.At text left f) (hdone : done.length ≤ left.length)
    (hn : l.bytes < n + done.length) :
    l.scan c again n done f = l.scan c again (n + 1) done f := by
  induction n generalizing left done f with
  | zero =>
    rw [scan_succ, step_of_length hat hdone (by omega)]
    rfl
  | succ n ih =>
    have hstepped := hat.stepped c
    rw [scan_succ, scan_succ]
    generalize l.step c f = r at hstepped ⊢
    cases hstepped with
    | finish => rfl
    | search => rfl
    | inner => rfl
    | @pass passed g hnodes hpassed hg =>
      have hpos := List.length_pos_iff.2 hpassed
      exact ih hg (by simp; omega) (by simp; omega)
    | make hfits htoken =>
      dsimp only
      split
      · have htraced := hagain _ _ (hat.again hc hfits htoken)
        generalize hr : again _ = r at htraced ⊢
        cases r with
        | error e => rfl
        | ok sub =>
          obtain ⟨hresume, -⟩ :=
            hat.resume hc hfits htoken (fun t more => hhead _ _ t more hr) htraced
          exact ih hresume (by simp; omega) (by simp; omega)
      · exact ih (hat.behind hc hfits htoken) (by simp; omega) (by simp; omega)

/-- A scan of a level never runs out of steps: more of them come to the same. -/
theorem scan_eq_of_le {i : Nat} (hc : c ∈ l.rules) (hat : l.At text left f)
    (hn : l.bytes + 2 ≤ n) :
    l.scan c (l.passes i) n [] f = l.scan c (l.passes i) (l.bytes + 2) [] f := by
  induction hn with
  | refl => rfl
  | step hle ih =>
    rw [← ih]
    refine (scan_eq_succ hc (fun left f hat => passes_traced i hat)
      (fun f g t more => head_of_passes) hat (Nat.zero_le _) ?_).symm
    have := Nat.le.dest hle
    simp only [List.length_nil]
    omega

end Level

end Tokenizer

namespace Store

open Tokenizer

/-- A grammar with a text hands a part of it on to another grammar: one of its patterns finds that
    part and has that grammar inside. -/
def HandsOn (s : Store) (x y : GrammarId × List Char) : Prop :=
  ∃ rule ∈ (s.effectiveRules x.1).entries, ∃ p ∈ rule.2, p.inside = some y.1 ∧
    ∃ offset, p.FoundAt x.2 offset y.2

/-- The store has tame patterns only. -/
def Tame (s : Store) : Prop :=
  ∀ grammar, ∀ rule ∈ (s.effectiveRules grammar).entries, ∀ p ∈ rule.2, p.tame = true

variable {s : Store}

theorem exists_nested (htame : s.Tame) (hwf : WellFounded fun y x => s.HandsOn x y)
    (x : GrammarId × List Char) : ∃ d nodes, nested s d x.1 x.2 = .ok nodes := by
  induction x using hwf.induction with
  | _ x ih =>
  cases hrun : nested s (depthFor s (byteLength x.2) + 1) x.1 x.2 with
  | ok nodes => exact ⟨_, nodes, hrun⟩
  | error e =>
    exfalso
    obtain ⟨c, hc, hfails⟩ := Level.fails_of_run hrun
    obtain ⟨rule, hrule, -, hp⟩ := mem_candidates.1 hc
    have hpattern := htame _ rule hrule _ hp
    rcases hfails with hblames | ⟨g, offset, matched, hinside, hfound, hinner⟩
    · rcases hblames with ⟨here, hfind⟩ | ⟨-, here, m, hfind, hlt⟩
      · obtain ⟨found, hok, -⟩ := Pattern.exists_find hpattern here
        rw [hfind] at hok
        simp at hok
      · have hle := Pattern.le_of_find hpattern hfind
        omega
    · obtain ⟨d, nodes, hnodes⟩ :=
        ih (g, matched) ⟨rule, hrule, c.pattern, hp, hinside, offset, hfound⟩
      have hends : nested s d g matched ≠ .error .endless := by simp [hnodes]
      have hdepth := nested_depthFor hends (byteLength_le_of_isInfix hfound.isInfix)
      rw [hnodes] at hdepth
      simp only [hdepth, reduceCtorEq] at hinner

/-- Where nothing fails and no text is handed on for ever, every text is tokenized. -/
theorem exists_tokenize (htame : s.Tame) (hwf : WellFounded fun y x => s.HandsOn x y)
    (text : String) (grammar : GrammarId) : ∃ nodes, s.tokenize text grammar = .ok nodes := by
  obtain ⟨d, nodes, h⟩ := exists_nested htame hwf (grammar, text.toList)
  have htokenize := tokenize_eq_of_nested h
  rw [String.ofList_toList] at htokenize
  exact ⟨nodes, htokenize⟩

/-- Whether a pattern cannot hand on all of a text, if it does not begin with `c`. -/
def bars (c : Char) (p : Pattern) : Bool :=
  p.cuts || p.begins c

/-- How many grammars can follow each other on one text from a grammar on, up to `fuel`, if the
    text does not begin with `c`. -/
def height (s : Store) (c : Char) : Nat → GrammarId → Nat
  | 0, _ => 0
  | fuel + 1, grammar =>
    (candidates (s.effectiveRules grammar)).foldl (fun most candidate =>
      match candidate.pattern.inside with
      | some inner =>
        if bars c candidate.pattern then most else max most (s.height c fuel inner + 1)
      | none => most) 0

/-- Whether a pattern hands a text that does not begin with `c` on to a lower grammar, if it can
    hand on all of it. -/
def lowers (s : Store) (c : Char) (grammar : GrammarId) (p : Pattern) : Bool :=
  p.inside.all fun inner =>
    bars c p || s.height c s.slots.size inner < s.height c s.slots.size grammar

/-- Whether all patterns are tame and lead to lower grammars, be it that a text begins with `a`,
    and so not with `b`, or that it does not begin with `a`. -/
def wellBuilt (s : Store) (a b : Char) : Bool :=
  a != b && (List.range s.slots.size).all fun i =>
    (candidates (s.effectiveRules ⟨i⟩)).all fun c =>
      c.pattern.tame && s.lowers a ⟨i⟩ c.pattern && s.lowers b ⟨i⟩ c.pattern

/-- The height of a grammar on a text. -/
def heightAt (s : Store) (a b : Char) (x : GrammarId × List Char) : Nat :=
  s.height (if x.2.head? = some a then b else a) s.slots.size x.1

variable {a b : Char} {x y : GrammarId × List Char}

/-- What the check says of one pattern. -/
theorem of_wellBuilt (h : s.wellBuilt a b = true) {grammar : GrammarId} {rule : String × Rule}
    {p : Pattern} (hrule : rule ∈ (s.effectiveRules grammar).entries) (hp : p ∈ rule.2) :
    a ≠ b ∧ p.tame = true ∧ s.lowers a grammar p = true ∧ s.lowers b grammar p = true := by
  simp only [wellBuilt, Bool.and_eq_true, bne_iff_ne, List.all_eq_true, List.mem_range] at h
  have hindex : grammar.index < s.slots.size := by
    refine Nat.lt_of_not_le fun hle => ?_
    rw [effectiveRules_eq_empty hle] at hrule
    simp [Table.empty] at hrule
  have hall := Array.all_eq_true'.1 (h.2 grammar.index hindex) ⟨rule.1, p⟩
    (mem_candidates.2 ⟨rule, hrule, rfl, hp⟩)
  simp only [Bool.and_eq_true] at hall
  exact ⟨h.1, hall.1.1, hall.1.2, hall.2⟩

theorem tame_of_wellBuilt (h : s.wellBuilt a b = true) : s.Tame :=
  fun _ _ hrule _ hp => (of_wellBuilt h hrule hp).2.1

/-- A text that is handed on is shorter, or it is all of the text, and the grammar is lower. -/
theorem HandsOn.lower (h : s.wellBuilt a b = true) (hxy : s.HandsOn x y) :
    y.2 <:+: x.2 ∧ (byteLength y.2 < byteLength x.2 ∨
      (y.2 = x.2 ∧ s.heightAt a b y < s.heightAt a b x)) := by
  obtain ⟨rule, hrule, p, hp, hinside, offset, hfound⟩ := hxy
  obtain ⟨hab, htame, ha, hb⟩ := of_wellBuilt h hrule hp
  have hpart := hfound.isInfix
  refine ⟨hpart, ?_⟩
  rcases Nat.lt_or_eq_of_le (byteLength_le_of_isInfix hpart) with hlt | heq
  · exact Or.inl hlt
  · have htext := eq_of_isInfix_of_byteLength hpart heq
    -- all of the text is handed on, so the pattern is not barred
    have hbars : ∀ c, bars c p = true → x.2.head? = some c := by
      intro c hbars
      simp only [bars, Bool.or_eq_true] at hbars
      rcases hbars with hcuts | hbegins
      · have hshorter := hfound.shorter htame hcuts
        omega
      · rw [← htext]
        exact hfound.head htame hbegins
    refine Or.inr ⟨htext, ?_⟩
    simp only [lowers, hinside, Option.all_some, Bool.or_eq_true, decide_eq_true_eq] at ha hb
    rw [heightAt, heightAt, htext]
    split
    · rename_i hhead
      refine hb.resolve_left fun hbar => hab ?_
      have hhead' := hbars b hbar
      rw [hhead, Option.some.injEq] at hhead'
      exact hhead'
    · rename_i hhead
      exact ha.resolve_left fun hbar => hhead (hbars a hbar)

/-- No text is handed on for ever. -/
theorem wellFounded_handsOn (h : s.wellBuilt a b = true) :
    WellFounded fun y x => s.HandsOn x y := by
  refine Subrelation.wf ?_ (InvImage.wf (fun x => (byteLength x.2, s.heightAt a b x))
    (Prod.lex Nat.lt_wfRel Nat.lt_wfRel).wf)
  intro y x hxy
  obtain ⟨-, hlt | ⟨htext, hlt⟩⟩ := hxy.lower h
  · exact Prod.Lex.left _ _ hlt
  · rw [InvImage, htext]
    exact Prod.Lex.right _ hlt

/-- Around a cycle of grammars the text gets shorter. -/
theorem shorter_of_cycle (h : s.wellBuilt a b = true) {grammar : GrammarId}
    {text text' : List Char}
    (hcycle : Relation.TransGen s.HandsOn (grammar, text) (grammar, text')) :
    byteLength text' < byteLength text := by
  have hpath : ∀ y, Relation.TransGen s.HandsOn (grammar, text) y → y.2 <:+: text ∧
      (byteLength y.2 < byteLength text ∨
        (y.2 = text ∧ s.heightAt a b y < s.heightAt a b (grammar, text))) := by
    intro y hy
    induction hy with
    | single hxy => exact hxy.lower h
    | tail _ hyz ih =>
      obtain ⟨hpart, hy⟩ := ih
      obtain ⟨hpart', hz⟩ := hyz.lower h
      refine ⟨hpart'.trans hpart, ?_⟩
      rcases hy with hlt | ⟨htext, hlt⟩
      · have := byteLength_le_of_isInfix hpart'
        exact Or.inl (by omega)
      · rcases hz with hlt' | ⟨htext', hlt'⟩
        · exact Or.inl (htext ▸ hlt')
        · exact Or.inr ⟨htext'.trans htext, hlt'.trans hlt⟩
  obtain ⟨-, hlt | ⟨htext, hlt⟩⟩ := hpath _ hcycle
  · exact hlt
  · -- the same grammar on the same text has the same height
    dsimp only at htext
    rw [htext] at hlt
    exact absurd hlt (Nat.lt_irrefl _)

end Store

end SyntaxHue
