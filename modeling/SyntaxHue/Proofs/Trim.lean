import Mathlib.Logic.Basic
import Mathlib.Tactic.ByContra
import SyntaxHue.Proofs.Decoding
import SyntaxHue.Proofs.Pattern

/-!
# The cut for look-behind

A pattern with look-behind drops as many bytes from the front of a match as its first group has,
wherever that group lies. That can be done if the match has so many bytes and none of its characters
is split, and what is left is the text up to the end of the match. A first group that begins where
the match begins and does not go beyond its end can always be dropped.
-/

namespace SyntaxHue

/-- There is a place between characters, or at an end of the text, with `n` bytes before it. -/
def IsBoundary (text : List Char) (n : Nat) : Prop :=
  ∃ before after, text = before ++ after ∧ byteLength before = n

theorem Cursor.isBoundary (c : Cursor) : IsBoundary c.text c.offset :=
  ⟨c.before.reverse, c.after, rfl, c.offset_eq.symm⟩

theorem IsBoundary.exists_cursor {text : List Char} {n : Nat} (h : IsBoundary text n) :
    ∃ c : Cursor, c.text = text ∧ c.offset = n := by
  obtain ⟨before, after, rfl, rfl⟩ := h
  obtain ⟨c, htext, -, hoffset, -⟩ := Cursor.exists_after (c := Cursor.start (before ++ after)) rfl
  refine ⟨c, ?_, ?_⟩
  · rw [htext, Cursor.text_start]
  · rw [hoffset, Cursor.start, Nat.zero_add]

namespace Span

variable {s t : Span} {text : List Char} {bytes : Nat}

/-- Bytes cannot be cut off a span that has fewer, nor if that splits a character. -/
theorem trim?_eq_none_iff (hs : s.InOrder text) :
    s.trim? bytes = none ↔ s.length < bytes ∨ ¬ IsBoundary text (s.start.offset + bytes) := by
  have hle := hs.le
  constructor
  · intro hnone
    by_contra hcan
    rw [not_or, not_not, Nat.not_lt] at hcan
    obtain ⟨hbytes, hboundary⟩ := hcan
    obtain ⟨cut, htext, hoffset⟩ := hboundary.exists_cursor
    rw [length] at hbytes
    have hsome := trim?_to hs htext (by omega) (by omega)
    rw [hoffset, Nat.add_sub_cancel_left, hnone] at hsome
    cases hsome
  · intro hcannot
    cases htrim : s.trim? bytes with
    | none => rfl
    | some t =>
      obtain ⟨ht, hstop, hstart⟩ := trim?_eq_some hs htrim
      rcases hcannot with hshort | hsplit
      · have htle := ht.le
        rw [hstop, hstart] at htle
        rw [length] at hshort
        omega
      · refine absurd ?_ hsplit
        rw [← hstart, ← ht.start_text]
        exact t.start.isBoundary

end Span

/-- The places of a group are places of the text. -/
theorem Regex.text_of_group {r : Regex} {here : Cursor} {m : Match} {group : Span}
    (h : r.search here = .ok (some m)) (hgroup : some group ∈ m.groups) :
    group.start.text = here.text ∧ group.stop.text = here.text := by
  obtain ⟨place, o, htext, -, hdoes, hreport⟩ := does_of_search h
  have hin := keepsText_does r _ _ _ _ _ hdoes (Slots.inText_none htext)
  obtain ⟨span, -, rfl⟩ := Option.map_eq_some_iff.1 hreport
  obtain ⟨n, -, hn⟩ := List.mem_map.1 hgroup
  obtain ⟨hstart, hstop⟩ := Slots.span?_eq_some.1 hn
  exact ⟨hin.slots_text _ _ hstart, hin.slots_text _ _ hstop⟩

namespace Pattern

/-- The group that a pattern cuts off its matches. -/
def prefixGroup? (p : Pattern) (m : Match) : Option Span :=
  if p.lookbehind then m.groups.head?.join else none

/-- The number of bytes that a pattern cuts off a match. -/
def cutOff (p : Pattern) (m : Match) : Nat :=
  ((p.prefixGroup? m).map Span.length).getD 0

variable {p : Pattern} {here : Cursor} {m : Match} {group : Span}

theorem prefixGroup?_eq_some :
    p.prefixGroup? m = some group ↔ p.lookbehind = true ∧ m.groups.head? = some (some group) := by
  rw [prefixGroup?]
  split
  · rename_i hlook
    simp [hlook, Option.join_eq_some_iff]
  · rename_i hlook
    simp [hlook]

/-- What a pattern makes of a match: it cuts the front off, if there is one to cut. -/
theorem find_of_search (hsearch : p.regex.search here = .ok (some m)) :
    p.find here = match (m.span.trim? (p.cutOff m) : Option Span) with
      | some span => .ok (some ⟨span, m.groups⟩)
      | none => .error .badTrim := by
  have hzero : m.span.trim? 0 = some m.span := by
    have hle := (Regex.inOrder_of_search hsearch).le
    rw [Span.trim?, if_pos (by omega), Span.trim?.go]
    rfl
  rw [find, hsearch, cutOff, prefixGroup?]
  dsimp only
  cases hlook : p.lookbehind with
  | false => simp [hzero]
  | true =>
    cases hgroups : m.groups with
    | nil => simp [hzero]
    | cons first others =>
      cases first with
      | none => simp [hzero]
      | some group => rfl

/-- A match of a pattern as it is reported: it ends where the match of the expression ends, and
    begins as many bytes behind the start of that as are cut off. Its text is what the text that
    was searched has between these places. -/
structure Reports (p : Pattern) (here : Cursor) (m : Match) (found : PatternMatch) : Prop where
  groups : found.groups = m.groups
  from_start : m.span.start.offset ≤ found.span.start.offset
  to_stop : found.span.start.offset ≤ m.span.stop.offset
  start_eq : found.span.start.offset = m.span.start.offset + p.cutOff m
  stop_eq : found.span.stop = m.span.stop
  text_eq : ∃ before after, here.text = before ++ (found.span.chars ++ after) ∧
    byteLength before = found.span.start.offset ∧
    byteLength before + byteLength found.span.chars = m.span.stop.offset

theorem reports_of_find {found : PatternMatch} (hsearch : p.regex.search here = .ok (some m))
    (hfind : p.find here = .ok (some found)) : p.Reports here m found := by
  have hin := Regex.inOrder_of_search hsearch
  rw [find_of_search hsearch] at hfind
  cases htrim : m.span.trim? (p.cutOff m) with
  | none => simp [htrim] at hfind
  | some span =>
    simp only [htrim, Except.ok.injEq, Option.some.injEq] at hfind
    subst hfind
    obtain ⟨horder, hstop, hstart⟩ := Span.trim?_eq_some hin htrim
    have hle := horder.le
    refine ⟨rfl, ?_, ?_, hstart, hstop, ?_⟩
    · dsimp only
      omega
    · rw [← hstop]
      exact hle
    · refine ⟨_, _, horder.text_eq, span.start.offset_eq.symm, ?_⟩
      rw [← span.start.offset_eq, ← hstop, horder.stop_offset]

/-- Where the expression has a match, a search for the pattern that does not fail finds one. -/
theorem exists_found {answer : Option PatternMatch} (hsearch : p.regex.search here = .ok (some m))
    (hfind : p.find here = .ok answer) : ∃ found, answer = some found := by
  rw [find_of_search hsearch] at hfind
  split at hfind
  · cases hfind
    exact ⟨_, rfl⟩
  · cases hfind

/-- The first group cannot be cut off the match. -/
def Uncut (m : Match) (text : List Char) (group : Span) : Prop :=
  m.span.length < group.length ∨ ¬ IsBoundary text (m.span.start.offset + group.length)

theorem find_fails_iff (hsearch : p.regex.search here = .ok (some m)) :
    (∃ e, p.find here = .error e) ↔ p.lookbehind = true ∧
      ∃ group, m.groups.head? = some (some group) ∧ Uncut m here.text group := by
  have hin := Regex.inOrder_of_search hsearch
  have hfails : (∃ e, p.find here = .error e) ↔
      m.span.length < p.cutOff m ∨ ¬ IsBoundary here.text (m.span.start.offset + p.cutOff m) := by
    rw [← Span.trim?_eq_none_iff hin, find_of_search hsearch]
    cases m.span.trim? (p.cutOff m) <;> simp
  rw [hfails]
  constructor
  · intro hbad
    cases hgroup : p.prefixGroup? m with
    | some group =>
      obtain ⟨hlook, hhead⟩ := prefixGroup?_eq_some.1 hgroup
      rw [cutOff, hgroup] at hbad
      exact ⟨hlook, group, hhead, hbad⟩
    | none =>
      -- nothing is cut off, and a match begins at a boundary
      rw [cutOff, hgroup] at hbad
      rcases hbad with hshort | hsplit
      · exact absurd hshort (Nat.not_lt_zero _)
      · refine absurd ?_ hsplit
        rw [← hin.start_text]
        exact m.span.start.isBoundary
  · rintro ⟨hlook, group, hhead, hbad⟩
    rw [cutOff, prefixGroup?_eq_some.2 ⟨hlook, hhead⟩]
    exact hbad

/-- A first group that begins with the match and ends in it can be cut off. -/
theorem not_uncut_of_front (hsearch : p.regex.search here = .ok (some m))
    (hhead : m.groups.head? = some (some group))
    (hstart : group.start.offset = m.span.start.offset)
    (hstop : group.stop.offset ≤ m.span.stop.offset) : ¬ Uncut m here.text group := by
  have hle := (Regex.inOrder_of_search hsearch).le
  obtain ⟨htext, htext'⟩ := Regex.text_of_group hsearch (List.mem_of_mem_head? hhead)
  rintro (hshort | hsplit)
  · rw [Span.length, Span.length] at hshort
    omega
  · refine hsplit ?_
    by_cases horder : group.start.offset ≤ group.stop.offset
    · have hend : m.span.start.offset + group.length = group.stop.offset := by
        rw [Span.length]
        omega
      rw [hend, ← htext']
      exact group.stop.isBoundary
    · have hend : m.span.start.offset + group.length = group.start.offset := by
        rw [Span.length]
        omega
      rw [hend, ← htext]
      exact group.start.isBoundary

/-- Where the expression of a pattern has a match, the pattern reports it without its front, or the
    search fails. It fails exactly if the pattern has look-behind, the first group took part, and
    its bytes are more than the match has or end inside a character; so never if the group begins
    with the match and ends in it. An expression may move the start of its match. If it does not
    move it before the place of the search, what is reported starts there or later, too. -/
theorem find_reports (p : Pattern) {here : Cursor} {m : Match}
    (hsearch : p.regex.search here = .ok (some m)) :
    ((∃ e, p.find here = .error e) ↔ p.lookbehind = true ∧
      ∃ group, m.groups.head? = some (some group) ∧ (m.span.length < group.length ∨
        ¬ IsBoundary here.text (m.span.start.offset + group.length))) ∧
    (∀ answer, p.find here = .ok answer → ∃ found, answer = some found ∧ p.Reports here m found ∧
      (here.offset ≤ m.span.start.offset → here.offset ≤ found.span.start.offset)) ∧
    (∀ group, m.groups.head? = some (some group) →
      group.start.offset = m.span.start.offset → group.stop.offset ≤ m.span.stop.offset →
        ∃ found, p.find here = .ok (some found)) := by
  refine ⟨find_fails_iff hsearch, ?_, ?_⟩
  · intro answer hanswer
    obtain ⟨found, rfl⟩ := exists_found hsearch hanswer
    have hreports := reports_of_find hsearch hanswer
    exact ⟨found, rfl, hreports, fun hle => Nat.le_trans hle hreports.from_start⟩
  · intro group hhead hstart hstop
    cases hfind : p.find here with
    | ok answer =>
      obtain ⟨found, rfl⟩ := exists_found hsearch hfind
      exact ⟨found, rfl⟩
    | error e =>
      obtain ⟨-, other, hother, hbad⟩ := (find_fails_iff hsearch).1 ⟨e, hfind⟩
      rw [hhead, Option.some.injEq, Option.some.injEq] at hother
      subst hother
      exact absurd hbad (not_uncut_of_front hsearch hhead hstart hstop)

/-- A pattern whose first group lies behind its matches. -/
def misplaced (r : Regex) : Pattern :=
  Compiler.assemble { source := "(?=.(.))é", lookbehind := true } r none

/-- Whether there is a match at the start of a text, but no cut. -/
def missesCut (text : List Char) (r : Regex) : Bool :=
  match r.search (Cursor.start text), (misplaced r).find (Cursor.start text) with
  | .ok (some _), .error _ => true
  | _, _ => false

/-- One byte cannot be cut off a character of two. -/
theorem find_reports_misplaced : ∃ r m, Compiler.regex "" "(?=.(.))é" = .ok r ∧
    (misplaced r).regex.search (Cursor.start "éa".toList) = .ok (some m) ∧
    ∃ group, m.groups.head? = some (some group) ∧ (m.span.length < group.length ∨
      ¬ IsBoundary "éa".toList (m.span.start.offset + group.length)) := by
  obtain ⟨r, hr, hmisses⟩ : ∃ r, Compiler.regex "" "(?=.(.))é" = .ok r ∧
      missesCut "éa".toList r := Compiler.exists_regex (by decide +kernel)
  unfold missesCut at hmisses
  split at hmisses
  · rename_i m e hsearch hfind
    obtain ⟨-, hbad⟩ := (find_reports (misplaced r) hsearch).1.1 ⟨e, hfind⟩
    exact ⟨r, m, hr, hsearch, hbad⟩
  · cases hmisses

end Pattern

end SyntaxHue
