import SyntaxHue.Proofs.Decoding
import SyntaxHue.Proofs.Tokenizer.Split

/-!
# Rules that find nothing

A pattern that finds nothing in a text leaves the nodes of every frame as they are. So a grammar
with more such patterns, in kinds of their own or among the patterns of a kind, makes the same of
the text, although all other patterns have other numbers in it: what is scanned again after a match
is scanned with the same patterns, but for some that find nothing.
-/

namespace SyntaxHue

open Tokenizer

/-- The list `ys` is `xs` with more elements at any places. An element that is added has `Extra`,
    and the others are by `Same` what they were. -/
inductive Padded {α : Type} (Same : α → α → Prop) (Extra : α → Prop) : List α → List α → Prop where
  | nil : Padded Same Extra [] []
  | keep {x y : α} {xs ys : List α} : Same x y → Padded Same Extra xs ys →
      Padded Same Extra (x :: xs) (y :: ys)
  | add {y : α} {xs ys : List α} : Extra y → Padded Same Extra xs ys →
      Padded Same Extra xs (y :: ys)

namespace Padded

variable {α β : Type} {Same : α → α → Prop} {Extra : α → Prop} {xs ys us vs : List α}

theorem of_extra (h : ∀ y ∈ ys, Extra y) : Padded Same Extra [] ys := by
  induction ys with
  | nil => exact .nil
  | cons y ys ih =>
    rw [List.forall_mem_cons] at h
    exact .add h.1 (ih h.2)

theorem append (h : Padded Same Extra xs ys) (h' : Padded Same Extra us vs) :
    Padded Same Extra (xs ++ us) (ys ++ vs) := by
  induction h with
  | nil => exact h'
  | keep hsame _ ih => exact .keep hsame ih
  | add hextra _ ih => exact .add hextra ih

theorem map {P : β → Prop} {f : α → β} (h : Padded Eq Extra xs ys)
    (hf : ∀ y, Extra y → P (f y)) : Padded Eq P (xs.map f) (ys.map f) := by
  induction h with
  | nil => exact .nil
  | keep hsame _ ih => exact .keep (congrArg f hsame) ih
  | add hextra _ ih => exact .add (hf _ hextra) ih

/-- The last element is one that was added, or it was the last one before. -/
theorem of_concat {y : α} (h : Padded Same Extra xs (ys ++ [y])) :
    (Extra y ∧ Padded Same Extra xs ys) ∨
      ∃ us x, xs = us ++ [x] ∧ Same x y ∧ Padded Same Extra us ys := by
  induction ys generalizing xs with
  | nil =>
    cases h with
    | keep hsame hrest =>
      cases hrest
      exact Or.inr ⟨[], _, rfl, hsame, .nil⟩
    | add hextra hrest => exact Or.inl ⟨hextra, hrest⟩
  | cons z zs ih =>
    cases h with
    | keep hsame hrest =>
      rcases ih hrest with ⟨hextra, hpadded⟩ | ⟨us, x, rfl, hlast, hpadded⟩
      · exact Or.inl ⟨hextra, .keep hsame hpadded⟩
      · exact Or.inr ⟨_ :: us, x, rfl, hlast, .keep hsame hpadded⟩
    | add hextra hrest =>
      rcases ih hrest with ⟨hextra', hpadded⟩ | ⟨us, x, rfl, hlast, hpadded⟩
      · exact Or.inl ⟨hextra', .add hextra hpadded⟩
      · exact Or.inr ⟨us, x, rfl, hlast, .add hextra hpadded⟩

end Padded

namespace Pattern

/-- The pattern finds nothing in any part of the text, from no place in the part on. -/
def Silent (text : List Char) (p : Pattern) : Prop :=
  ∀ here : Cursor, here.text <:+: text → p.find here = .ok none

/-- A tame pattern finds nothing in a text without the character that all of its finds begin
    with. -/
theorem silent_of_begins {p : Pattern} {c : Char} {text : List Char} (h : p.tame = true)
    (hbegins : p.begins c = true) (hc : c ∉ text) : p.Silent text := by
  intro here hpart
  obtain ⟨found, hfind, -⟩ := exists_find h here
  cases found with
  | none => exact hfind
  | some m =>
    have hhead := head_of_find h hbegins hfind
    have hmem : c ∈ m.span.chars := List.mem_of_mem_head? hhead
    exact absurd (((inOrder_of_find hfind).chars_isInfix.trans hpart).subset hmem) hc

end Pattern

/-- The rules of a kind with more patterns among them that find nothing in the text. -/
def Rule.PaddedIn (text : List Char) (rule other : String × Rule) : Prop :=
  rule.1 = other.1 ∧ Padded Eq (Pattern.Silent text) rule.2 other.2

/-- Rules with more kinds and with more patterns of their kinds, at any places, which all find
    nothing in the text. -/
def Table.PaddedIn (text : List Char) (rules others : Table Rule) : Prop :=
  Padded (Rule.PaddedIn text) (fun rule => ∀ p ∈ rule.2, p.Silent text) rules.entries
    others.entries

namespace Tokenizer

/-- In the order of priority the patterns that are added stand somewhere between the others. -/
theorem padded_candidates {text : List Char} {rules others : Table Rule}
    (h : rules.PaddedIn text others) :
    Padded Eq (fun c => c.pattern.Silent text) (candidates rules).toList
      (candidates others).toList := by
  unfold Table.PaddedIn at h
  unfold candidates
  dsimp only
  generalize rules.entries = xs at h ⊢
  generalize others.entries = ys at h ⊢
  induction h with
  | nil => exact .nil
  | keep hsame _ ih =>
    obtain ⟨hkind, hpatterns⟩ := hsame
    rw [List.flatMap_cons, List.flatMap_cons, hkind]
    refine Padded.append (hpatterns.map fun p hp => ?_) ih
    exact hp
  | add hextra _ ih =>
    rw [List.flatMap_cons]
    refine Padded.append (.of_extra ?_) ih
    exact List.forall_mem_map.2 hextra

namespace Level

variable {l : Level} {text : List Char} {left done : List Node} {c : Candidate} {f : Frame}
  {again : Frame → Except Fault Frame} {i n : Nat}

/-- A step of a pattern that finds nothing changes no nodes. -/
theorem step_of_silent (hsilent : c.pattern.Silent text) (hat : l.At text left f) :
    l.step c f = .ok .finish ∨
      ∃ passed rest here, f.nodes = passed ++ rest ∧
        l.step c f = .ok (.pass passed { f with nodes := rest, here := here }) := by
  unfold step
  cases hnodes : f.nodes with
  | nil => exact Or.inl rfl
  | cons node more =>
    dsimp only
    split
    · exact Or.inl rfl
    · cases node with
      | token t => exact Or.inr ⟨[.token t], more, _, rfl, rfl⟩
      | text u =>
        dsimp only
        rw [look]
        cases c.pattern.mode with
        | fragment =>
          have hfind : c.pattern.find (Cursor.start u.toList) = .ok none := by
            refine hsilent _ ?_
            rw [Cursor.text_start]
            exact hat.isInfix hnodes
          dsimp only
          rw [lookInFragment, hfind]
          exact Or.inr ⟨[.text u], more, _, rfl, rfl⟩
        | input =>
          have hfind : c.pattern.find f.here = .ok none :=
            hsilent _ (hat.text_eq ▸ List.infix_refl _)
          dsimp only
          rw [lookInInput, hfind]
          exact Or.inl rfl

/-- A scan for a pattern that finds nothing changes no nodes. -/
theorem scan_of_silent (hsilent : c.pattern.Silent text) (hat : l.At text left f) :
    ∃ here, l.scan c again n done f =
      .ok { f with nodes := done.reverse ++ f.nodes, here := here } := by
  induction n generalizing left done f with
  | zero => exact ⟨f.here, rfl⟩
  | succ n ih =>
    have hstepped := hat.stepped c
    rw [scan_succ]
    rcases step_of_silent hsilent hat with hstep | ⟨passed, rest, here, hnodes, hstep⟩
    · rw [hstep]
      exact ⟨f.here, rfl⟩
    · rw [hstep] at hstepped ⊢
      cases hstepped with
      | pass _ _ hg =>
        obtain ⟨here', hscan⟩ := ih hg
        refine ⟨here', ?_⟩
        dsimp only
        rw [hscan, hnodes, List.reverse_append, List.reverse_reverse, List.append_assoc]

/-- A scan depends on what is scanned again only as far as frames of the level are. -/
theorem scan_congr (hc : c ∈ l.rules)
    (hhead : ∀ f g t more, again f = .ok g → f.nodes = .token t :: more →
      ∃ rest, g.nodes = .token t :: rest)
    (hagain : ∀ left f, l.At text left f → again f = l.passes i f) (hat : l.At text left f) :
    l.scan c again n done f = l.scan c (l.passes i) n done f := by
  have hunder : Under text l l := ⟨rfl, rfl, fun _ _ _ _ _ _ _ => .refl _⟩
  have htraced : ∀ left f, l.At text left f → l.Traced text (left ++ f.nodes) left [] (again f)
      (l.passesChanges i left f) := by
    intro left f hat
    rw [hagain left f hat]
    exact passes_traced i hat
  refine Below.antisymm ?_ ?_
  · refine hunder.scan hc htraced hhead (fun left f hat => ?_) n done hat
    rw [hagain left f hat]
    exact .refl _
  · refine hunder.scan hc (fun left f hat => passes_traced i hat) (fun f g t more => head_of_passes)
      (fun left f hat => ?_) n done hat
    rw [hagain left f hat]
    exact .refl _

/-- The first patterns of a level come to the same as those among them that can find something. -/
theorem passes_of_padded {rules : Array Candidate} {xs ys xs' ys' : List Candidate}
    (hpadded : Padded Eq (fun c => c.pattern.Silent text) xs ys)
    (hrules : l.rules.toList = xs ++ xs') (hothers : rules.toList = ys ++ ys')
    (hat : l.At text left f) :
    ({ l with rules } : Level).passes ys.length f = l.passes xs.length f := by
  induction ys using List.reverseRecOn generalizing xs xs' ys' left f with
  | nil =>
    cases hpadded
    rfl
  | append_singleton ys c ih =>
    have hc : rules[ys.length]? = some c := by
      rw [← Array.getElem?_toList, hothers]
      simp
    rw [List.append_assoc] at hothers
    rw [List.length_append, List.length_singleton, passes_succ]
    dsimp only
    rw [hc]
    rcases hpadded.of_concat with ⟨hsilent, hpadded⟩ | ⟨us, d, rfl, hsame, hbefore⟩
    · -- the pattern finds nothing
      rw [ih hpadded hrules hothers hat]
      have htraced := passes_traced xs.length hat
      generalize hr : l.passes xs.length f = r at htraced ⊢
      cases r with
      | error e => rfl
      | ok mid =>
        obtain ⟨hmid, -⟩ := htraced.at hat
        rw [← here_of_passes hr] at hmid
        dsimp only
        rw [scan_with_rules]
        obtain ⟨here, hscan⟩ : ∃ here, l.scan c (({ l with rules } : Level).passes ys.length)
            (l.bytes + 2) [] mid = .ok { mid with here := here } := scan_of_silent hsilent hmid
        rw [hscan]
    · -- the pattern is one of the level, and scans again with the same patterns but for silent ones
      subst hsame
      rw [List.append_assoc] at hrules
      have hc' : l.rules[us.length]? = some d := by
        rw [← Array.getElem?_toList, hrules]
        simp
      rw [List.length_append, List.length_singleton, passes_succ, hc',
        ih hbefore hrules hothers hat]
      have htraced := passes_traced us.length hat
      generalize hr : l.passes us.length f = r at htraced ⊢
      cases r with
      | error e => rfl
      | ok mid =>
        obtain ⟨hmid, -⟩ := htraced.at hat
        rw [← here_of_passes hr] at hmid
        dsimp only
        rw [scan_with_rules, scan_congr (Array.mem_of_getElem? hc')
          (fun f g t more => head_of_passes) (fun left f hat => ih hbefore hrules hothers hat) hmid]

/-- A level comes to the same with more patterns that find nothing. -/
theorem run_of_padded {rules : Array Candidate}
    (h : Padded Eq (fun c => c.pattern.Silent text) l.rules.toList rules.toList) :
    ({ l with rules } : Level).run text = l.run text := by
  have hpasses := passes_of_padded h (List.append_nil _).symm (List.append_nil _).symm
    (At.opening l text)
  rw [Array.length_toList, Array.length_toList] at hpasses
  rw [run_eq, run_eq, hpasses]

end Level

end Tokenizer

namespace Store

/-- Rules that find nothing in a text are invisible. If the rules of a grammar are those of another
    one with more kinds, or more patterns of a kind, and what is added finds nothing in any part of
    the text, then the text is tokenized to the same tree with both of them, or fails alike. -/
theorem tokenize_eq_of_padded {s : Store} {grammar other : GrammarId} {text : String}
    (h : (s.effectiveRules grammar).PaddedIn text.toList (s.effectiveRules other)) :
    s.tokenize text other = s.tokenize text grammar := by
  have hrun := Level.run_of_padded (l := s.levelOf grammar text.toList) (padded_candidates h)
  rw [← String.ofList_toList (s := text), tokenize_eq_run, tokenize_eq_run]
  exact hrun

/-- Numbers, and groups with the digits in them. The numbers come after the kinds of `more`, and
    `numbers` are further patterns for them. -/
def tallies (more : List RuleDef) (numbers : List PatternDef) : GrammarDef :=
  .ofRules (more ++ [
    .mk "number" (numbers ++ [.plain "\\d+"]),
    .mk "group" [.mk { source := "\\([^)]*\\)", greedy := true } (.language "digits")]]) none

/-- A store with the grammar `tallies` in slot 1, and in slot 2 with comments and colors. -/
def tallied : Store :=
  let made : Except GrammarError Store := do
    let (_, s) ← empty.define "digits" (.ofRules [.mk "digit" [.plain "\\d"]] none)
    let (_, s) ← s.define "plain" (tallies [] [])
    let (_, s) ← s.define "rich" (tallies [.mk "comment" [.plain "#.*"]] [.plain "#[0-9a-f]+"])
    return s
  made.toOption.getD empty

/-- Whether a source without options gives a tame pattern for what begins with `c`. -/
def opensWith (c : Char) (source : String) (r : Regex) : Bool :=
  let p := Compiler.assemble { source } r none
  p.tame && p.begins c

theorem paddedIn_tallied :
    (tallied.effectiveRules ⟨1⟩).PaddedIn "a (1) 2".toList (tallied.effectiveRules ⟨2⟩) := by
  obtain ⟨digit, hdigit⟩ : ∃ r, Compiler.regex "digit" "\\d" = .ok r :=
    Compiler.exists_regex_of_isOk (by decide +kernel)
  obtain ⟨number, hnumber⟩ : ∃ r, Compiler.regex "number" "\\d+" = .ok r :=
    Compiler.exists_regex_of_isOk (by decide +kernel)
  obtain ⟨group, hgroup⟩ : ∃ r, Compiler.regex "group" "\\([^)]*\\)" = .ok r :=
    Compiler.exists_regex_of_isOk (by decide +kernel)
  obtain ⟨comment, hcomment, hopens⟩ : ∃ r, Compiler.regex "comment" "#.*" = .ok r ∧
      opensWith '#' "#.*" r := Compiler.exists_regex (by decide +kernel)
  obtain ⟨color, hcolor, hopens'⟩ : ∃ r, Compiler.regex "number" "#[0-9a-f]+" = .ok r ∧
      opensWith '#' "#[0-9a-f]+" r := Compiler.exists_regex (by decide +kernel)
  simp only [opensWith, Bool.and_eq_true] at hopens hopens'
  have htext : '#' ∉ "a (1) 2".toList := by decide
  have hslots : tallied.slots[1]? = some ⟨⟨[
        ("number", [Compiler.assemble { source := "\\d+" } number none]),
        ("group", [Compiler.assemble { source := "\\([^)]*\\)", greedy := true } group
          (some ⟨0⟩)])]⟩, none⟩ ∧
      tallied.slots[2]? = some ⟨⟨[
        ("comment", [Compiler.assemble { source := "#.*" } comment none]),
        ("number", [Compiler.assemble { source := "#[0-9a-f]+" } color none,
          Compiler.assemble { source := "\\d+" } number none]),
        ("group", [Compiler.assemble { source := "\\([^)]*\\)", greedy := true } group
          (some ⟨0⟩)])]⟩, none⟩ := by
    simp [tallied, tallies, define, compilerFor, GrammarDef.ofRules, GrammarDef.putRule,
      RuleDef.kind, PatternDef.plain, Compiler.grammar, Compiler.rules, Compiler.rule,
      Compiler.patterns, Compiler.pattern, Compiler.inside, Compiler.language, Compiler.rest,
      hdigit, hnumber, hgroup, hcomment, hcolor, bind, Except.bind, pure, Except.pure,
      Except.toOption, Store.get?, Store.empty, Table.get?, Table.find?, Table.put, Table.putEntry,
      Table.putAll, Table.ofList, Table.empty]
  simp only [Table.PaddedIn, effectiveRules, grammar?, hslots]
  refine .add ?_ (.keep ⟨rfl, .add ?_ (.keep rfl .nil)⟩ (.keep ⟨rfl, .keep rfl .nil⟩ .nil))
  · intro p hp
    rw [List.mem_singleton.1 hp]
    exact Pattern.silent_of_begins hopens.1 hopens.2 htext
  · exact Pattern.silent_of_begins hopens'.1 hopens'.2 htext

/-- The numbers in a text without comments and colors are found alike. -/
theorem tokenize_eq_of_padded_tallied :
    (tallied.effectiveRules ⟨1⟩).PaddedIn "a (1) 2".toList (tallied.effectiveRules ⟨2⟩) ∧
      tallied.tokenize "a (1) 2" ⟨2⟩ = tallied.tokenize "a (1) 2" ⟨1⟩ :=
  ⟨paddedIn_tallied, tokenize_eq_of_padded paddedIn_tallied⟩

end Store

end SyntaxHue
