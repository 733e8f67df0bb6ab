import SyntaxHue.Proofs.Pattern
import SyntaxHue.Proofs.Regex.Groups
import SyntaxHue.Proofs.Regex.Refer

/-!
# Tame patterns

A pattern is tame if its outline shows that a search with it cannot fail: it has no references, it
never moves its start, and with look-behind its first group leads the match, so that it can be cut
off. Outlines also show with which character the text of a token begins, and that something is cut
off at all.
-/

namespace SyntaxHue

namespace Regex

variable {r : Regex} {here : Cursor} {m : Match} {body : Outline}

/-- A match of an outlined expression is the way of its body from the start of the match on. -/
theorem does_of_framed (hframe : r.outline.framed? = some body)
    (h : r.search here = .ok (some m)) : ∃ (place : Cursor) (z : Regular.Outcome),
      here.offset ≤ place.offset ∧ body.does ⟨place, Slots.none.note 0 place⟩ z ∧
      m.span = ⟨place, z.here⟩ ∧ place.offset ≤ z.here.offset ∧ m.groups.length = r.groups ∧
      (∀ g others, m.groups = g :: others → g = z.slots.span? 1) ∧
      ∀ c, z.slots.get? 3 = some c → c.text = here.text := by
  obtain ⟨place, o, htext, hle, hdoes, hreport⟩ := does_of_search h
  have ho := keepsText_does r _ _ _ _ _ hdoes (Slots.inText_none htext)
  obtain ⟨z, hz, hspan, hforward, hsame⟩ :=
    Outline.does_of_framed hframe (does_le_outline _ _ _ _ _ hdoes)
  obtain ⟨span, hspan', rfl⟩ := Option.map_eq_some_iff.1 hreport
  rw [hspan] at hspan'
  cases hspan'
  refine ⟨place, z, hle, hz, ?_, hforward, by simp, ?_, ?_⟩
  · simp [Nat.not_lt.2 hforward]
  · intro g others hgroups
    cases hn : r.groups with
    | zero => simp [hn] at hgroups
    | succ n =>
      rw [hn, List.range_succ_eq_map] at hgroups
      simp only [List.map_cons, List.cons.injEq] at hgroups
      rw [← hgroups.1, Slots.span?, Slots.span?, hsame.1, hsame.2]
  · intro c hc
    exact ho.slots_text 3 c (hsame.2.trans hc)

/-- The first group of a match starts with it and ends no later, if it leads the outline. -/
theorem leads_of_search (hframe : r.outline.framed? = some body) (hleads : body.leads 1 = true)
    (h : r.search here = .ok (some m)) {g : Span} {others : List (Option Span)}
    (hg : m.groups = some g :: others) : g.start = m.span.start ∧ g.stop.text = here.text ∧
      m.span.start.offset ≤ g.stop.offset ∧ g.stop.offset ≤ m.span.stop.offset := by
  obtain ⟨place, z, -, hz, hspan, -, -, hgroup, htext⟩ := does_of_framed hframe h
  have hunset : Outline.Unset 1 ⟨place, Slots.none.note 0 place⟩ := by
    constructor
    · rw [Slots.get?_note, if_neg (by omega), Slots.get?_none]
    · rw [Slots.get?_note, if_neg (by omega), Slots.get?_none]
  obtain ⟨hstart, hstop⟩ := Slots.span?_eq_some.1 (hgroup _ _ hg).symm
  rw [hspan]
  rcases Outline.leads_of_does hleads hunset hz with ⟨hnone, -⟩ | ⟨stop, hstart', hstop', hle, hend⟩
  · rw [hnone] at hstart
    simp at hstart
  · rw [hstart, Option.some.injEq] at hstart'
    rw [hstop, Option.some.injEq] at hstop'
    subst hstop'
    exact ⟨hstart', htext _ hstop, hle, hend⟩

end Regex

namespace Pattern

variable {p : Pattern} {here : Cursor} {m : PatternMatch}

/-- What the match of a pattern consists of, as far as its outline shows. -/
def body? (p : Pattern) : Option Outline :=
  p.regex.outline.framed?

/-- Whether the outline of a pattern shows that it can always be looked for. -/
def tame (p : Pattern) : Bool :=
  !p.regex.refers && p.body?.any fun body => !p.lookbehind || body.leads 1

/-- The first group of every match is the front of it, so that it can be cut off. -/
def CutsFront (p : Pattern) : Prop :=
  ∀ here m g others, p.regex.search here = .ok (some m) → m.groups = some g :: others →
    g.start = m.span.start ∧ g.stop.offset ≤ m.span.stop.offset ∧ g.chars <+: m.span.chars

theorem exists_body (h : p.tame = true) : p.regex.refers = false ∧
    ∃ body, p.regex.outline.framed? = some body ∧ (p.lookbehind = true → body.leads 1 = true) := by
  simp only [tame, body?, Bool.and_eq_true, Bool.not_eq_true', Option.any_eq_true] at h
  obtain ⟨hrefers, body, hbody, hleads⟩ := h
  refine ⟨hrefers, body, hbody, ?_⟩
  intro hlook
  simpa [hlook] using hleads

theorem cutsFront_of_tame (h : p.tame = true) (hlook : p.lookbehind = true) : p.CutsFront := by
  obtain ⟨-, body, hbody, hleads⟩ := exists_body h
  intro here m g others hsearch hg
  obtain ⟨hstart, htext, hle, hend⟩ := Regex.leads_of_search hbody (hleads hlook) hsearch hg
  have hm := Regex.inOrder_of_search hsearch
  have hgroup : g.InOrder here.text := by
    refine ⟨hstart ▸ hm.start_text, htext, ?_⟩
    rw [hstart]
    exact hle
  have hrest : Span.InOrder ⟨g.stop, m.span.stop⟩ here.text := ⟨htext, hm.stop_text, hend⟩
  refine ⟨hstart, hend, Span.chars ⟨g.stop, m.span.stop⟩, ?_⟩
  -- both sides are what the text has between the start of the match and its end
  have hafter := hgroup.after_eq
  rw [hstart, hrest.after_eq, hm.after_eq, ← List.append_assoc] at hafter
  exact (List.append_cancel_right hafter).symm

/-- What is left of a match: all of it, or with look-behind what comes after the first group. -/
inductive Left (p : Pattern) (raw : Match) : Span → Prop where
  | whole : (∀ g others, p.lookbehind = true → raw.groups ≠ some g :: others) →
      Left p raw raw.span
  | cut {g : Span} {others : List (Option Span)} : p.lookbehind = true →
      raw.groups = some g :: others → Left p raw ⟨g.stop, raw.span.stop⟩

/-- A tame pattern always has an answer, and what it finds is what is left of a match. -/
theorem exists_find (h : p.tame = true) (here : Cursor) :
    ∃ found, p.find here = .ok found ∧ ∀ m, found = some m →
      ∃ raw, p.regex.search here = .ok (some raw) ∧ p.Left raw m.span := by
  obtain ⟨hrefers, body, hbody, hleads⟩ := exists_body h
  obtain ⟨found, hsearch⟩ := Regex.exists_of_search hrefers here
  unfold find
  cases found with
  | none =>
    rw [hsearch]
    exact ⟨none, rfl, by simp⟩
  | some raw =>
    rw [hsearch]
    dsimp only
    split
    · rename_i g others hlook hg
      obtain ⟨hstart, htext, hle, hend⟩ := Regex.leads_of_search hbody (hleads hlook) hsearch hg
      have hm := Regex.inOrder_of_search hsearch
      have htrim := Span.trim?_to hm htext hle hend
      rw [Span.length, hstart, htrim]
      refine ⟨_, rfl, ?_⟩
      intro m hm
      cases hm
      exact ⟨raw, rfl, .cut hlook hg⟩
    · rename_i hnone
      refine ⟨_, rfl, ?_⟩
      intro m hm
      cases hm
      exact ⟨raw, rfl, .whole hnone⟩

theorem left_of_find (h : p.tame = true) (hfind : p.find here = .ok (some m)) :
    ∃ raw, p.regex.search here = .ok (some raw) ∧ p.Left raw m.span := by
  obtain ⟨found, hfound, hleft⟩ := exists_find h here
  rw [hfind, Except.ok.injEq] at hfound
  exact hleft m hfound.symm

/-- A tame pattern finds nothing before the place where it is looked for. -/
theorem le_of_find (h : p.tame = true) (hfind : p.find here = .ok (some m)) :
    here.offset ≤ m.span.start.offset := by
  obtain ⟨-, body, hbody, hleads⟩ := exists_body h
  obtain ⟨raw, hsearch, hleft⟩ := left_of_find h hfind
  obtain ⟨place, z, hle, -, hspan, -⟩ := Regex.does_of_framed hbody hsearch
  have hraw : here.offset ≤ raw.span.start.offset := by
    rw [hspan]
    exact hle
  generalize m.span = span at hleft ⊢
  cases hleft with
  | whole => exact hraw
  | cut hlook hg =>
    obtain ⟨-, -, hfront, -⟩ := Regex.leads_of_search hbody (hleads hlook) hsearch hg
    exact Nat.le_trans hraw hfront

/-- Whether the outline shows that all that is found begins with `c`. -/
def begins (c : Char) (p : Pattern) : Bool :=
  p.body?.any fun body =>
    if p.lookbehind then 0 < p.regex.groups && body.opens 1 c else body.begins c

/-- Whether the outline shows that some text is cut off from every match. -/
def cuts (p : Pattern) : Bool :=
  p.lookbehind && 0 < p.regex.groups && p.body?.any fun body => body.fills 1

/-- With look-behind, a group that the outline always notes is cut off. -/
theorem eq_of_cut {start stop : Cursor} {z : Regular.Outcome} {raw : Match}
    {span : Span} (hlook : p.lookbehind = true) (hgroups : 0 < raw.groups.length)
    (hgroup : ∀ g others, raw.groups = g :: others → g = z.slots.span? 1)
    (hstart : z.slots.get? 2 = some start) (hstop : z.slots.get? 3 = some stop)
    (hleft : p.Left raw span) : span = ⟨stop, raw.span.stop⟩ := by
  have hspan : z.slots.span? 1 = some ⟨start, stop⟩ := Slots.span?_eq_some.2 ⟨hstart, hstop⟩
  cases hleft with
  | whole hnone =>
    cases hraw : raw.groups with
    | nil => simp [hraw] at hgroups
    | cons g others =>
      have hg := hgroup g others hraw
      rw [hspan] at hg
      subst hg
      exact absurd hraw (hnone _ _ hlook)
  | cut _ hraw =>
    have hg := hgroup _ _ hraw
    rw [hspan, Option.some.injEq] at hg
    rw [hg]

theorem head_of_find {c : Char} (h : p.tame = true) (hbegins : p.begins c = true)
    (hfind : p.find here = .ok (some m)) : m.span.chars.head? = some c := by
  obtain ⟨-, body, hbody, hleads⟩ := exists_body h
  obtain ⟨raw, hsearch, hleft⟩ := left_of_find h hfind
  obtain ⟨place, z, hle, hz, hspan, -, hlength, hgroup, -⟩ := Regex.does_of_framed hbody hsearch
  have horder := inOrder_of_find hfind
  simp only [begins, body?, hbody, Option.any_some] at hbegins
  split at hbegins
  · rename_i hlook
    simp only [Bool.and_eq_true, decide_eq_true_eq] at hbegins
    obtain ⟨start, stop, hstart, hstop, hafter, hlt⟩ := Outline.after_of_opens hbegins.2 hz
    have hcut := eq_of_cut hlook (by omega) hgroup hstart hstop hleft
    rw [horder.head_chars, hcut]
    · exact hafter
    · rw [hcut, hspan]
      exact hlt
  · rename_i hlook
    obtain ⟨hafter, hlt⟩ := Outline.after_of_begins hbegins hz
    have hwhole : m.span = raw.span := by
      generalize m.span = span at hleft ⊢
      cases hleft with
      | whole => rfl
      | cut hlook' => exact absurd hlook' hlook
    rw [horder.head_chars, hwhole, hspan]
    · exact hafter
    · rw [hwhole, hspan]
      exact hlt

/-- Whether the outline shows that every match has some text. -/
def takes (p : Pattern) : Bool :=
  !p.lookbehind && p.body?.any Outline.takes

theorem ne_nil_of_find (h : p.tame = true) (htakes : p.takes = true)
    (hfind : p.find here = .ok (some m)) : m.span.chars ≠ [] := by
  obtain ⟨-, body, hbody, -⟩ := exists_body h
  obtain ⟨raw, hsearch, hleft⟩ := left_of_find h hfind
  obtain ⟨place, z, -, hz, hspan, -⟩ := Regex.does_of_framed hbody hsearch
  simp only [takes, body?, hbody, Option.any_some, Bool.and_eq_true, Bool.not_eq_true'] at htakes
  have hwhole : m.span = ⟨place, z.here⟩ := by
    rw [← hspan]
    generalize m.span = span at hleft ⊢
    cases hleft with
    | whole => rfl
    | cut hlook => simp [htakes.1] at hlook
  have hlt : place.offset < z.here.offset := Outline.lt_of_takes htakes.2 hz
  have hlength := (inOrder_of_find hfind).stop_offset
  intro hnil
  rw [hnil, hwhole] at hlength
  simp only [byteLength_nil] at hlength
  omega

/-- What a pattern finds that always cuts some text off has that text before it. -/
theorem pos_of_find (h : p.tame = true) (hcuts : p.cuts = true)
    (hfind : p.find here = .ok (some m)) : 0 < m.span.start.offset := by
  obtain ⟨-, body, hbody, -⟩ := exists_body h
  obtain ⟨raw, hsearch, hleft⟩ := left_of_find h hfind
  obtain ⟨place, z, -, hz, -, -, hlength, hgroup, -⟩ := Regex.does_of_framed hbody hsearch
  simp only [cuts, body?, hbody, Option.any_some, Bool.and_eq_true, decide_eq_true_eq] at hcuts
  obtain ⟨⟨hlook, hgroups⟩, hfills⟩ := hcuts
  obtain ⟨start, stop, hstart, hstop, hlt⟩ := Outline.lt_of_fills hfills hz
  rw [eq_of_cut hlook (by omega) hgroup hstart hstop hleft]
  exact Nat.zero_lt_of_lt hlt

theorem FoundAt.head {c : Char} {text matched : List Char} {offset : Nat} (h : p.tame = true)
    (hbegins : p.begins c = true) (hfound : p.FoundAt text offset matched) :
    matched.head? = some c := by
  unfold FoundAt at hfound
  split at hfound
  · obtain ⟨here, m, -, -, hfind, -, rfl⟩ := hfound
    exact head_of_find h hbegins hfind
  · obtain ⟨before, fragment, after, m, -, -, hfind, -, rfl⟩ := hfound
    exact head_of_find h hbegins hfind

/-- A text that something is cut off from is shorter than the text of its level. -/
theorem FoundAt.shorter {text matched : List Char} {offset : Nat} (h : p.tame = true)
    (hcuts : p.cuts = true) (hfound : p.FoundAt text offset matched) :
    byteLength matched < byteLength text := by
  have hfront : ∀ (here : Cursor) m, p.find here = .ok (some m) →
      byteLength m.span.chars < byteLength here.text := by
    intro here m hfind
    have hpos := pos_of_find h hcuts hfind
    have horder := inOrder_of_find hfind
    have hstop := m.span.stop.offset_le
    rw [horder.stop_offset, horder.stop_text] at hstop
    omega
  unfold FoundAt at hfound
  split at hfound
  · obtain ⟨here, m, rfl, -, hfind, -, rfl⟩ := hfound
    exact hfront here m hfind
  · obtain ⟨before, fragment, after, m, rfl, -, hfind, -, rfl⟩ := hfound
    have hlt := hfront _ m hfind
    rw [Cursor.text_start] at hlt
    simp only [byteLength_append]
    omega

end Pattern

end SyntaxHue
