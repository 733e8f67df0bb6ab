import SyntaxHue.Grammar.Pattern
import SyntaxHue.Proofs.Regex.Match

/-!
# What patterns find

The span that a pattern reports is a stretch of the text that was searched. The cut for
look-behind moves its start forward by the length of the first group; it succeeds if that leads
to a place between the ends of the match.
-/

namespace SyntaxHue

namespace Span

variable {s t : Span} {text : List Char}

theorem trim?_go_eq_some {bytes : Nat} {rest : List Char} {c d : Cursor}
    (h : trim?.go bytes rest c = some d) : d.text = c.text ∧ d.offset = c.offset + bytes := by
  induction rest generalizing bytes c with
  | nil =>
    cases bytes with
    | zero =>
      cases h
      exact ⟨rfl, rfl⟩
    | succ bytes => simp [trim?.go] at h
  | cons r rest ih =>
    cases bytes with
    | zero =>
      cases h
      exact ⟨rfl, rfl⟩
    | succ bytes =>
      simp only [trim?.go] at h
      split at h
      · rename_i x there hnext
        split at h
        · obtain ⟨htext, hoffset⟩ := ih h
          obtain ⟨htext', -, hoffset'⟩ := Cursor.next?_eq_some hnext
          exact ⟨htext.trans htext', by omega⟩
        · simp at h
      · simp at h

theorem trim?_go_append {u v : List Char} {c : Cursor} (h : c.after = u ++ v) :
    ∃ d, trim?.go (byteLength u) (u ++ v) c = some d := by
  induction u generalizing c with
  | nil => exact ⟨c, by simp [trim?.go]⟩
  | cons x u ih =>
    have hpos := x.utf8Size_pos
    obtain ⟨d, hd, hafter⟩ := Cursor.next?_cons h
    obtain ⟨b, hb⟩ : ∃ b, byteLength (x :: u) = b + 1 :=
      Nat.exists_eq_add_one.2 (by simp only [byteLength_cons]; omega)
    have hsub : b + 1 - x.utf8Size = byteLength u := by
      rw [← hb, byteLength_cons]
      omega
    have hle : x.utf8Size ≤ b + 1 := by
      rw [← hb, byteLength_cons]
      omega
    rw [hb, List.cons_append]
    simp only [trim?.go, hd, if_pos hle, hsub]
    exact ih hafter

theorem trim?_eq_some {bytes : Nat} (hs : s.InOrder text) (h : s.trim? bytes = some t) :
    t.InOrder text ∧ t.stop = s.stop ∧ t.start.offset = s.start.offset + bytes := by
  unfold trim? at h
  split at h
  · obtain ⟨start, hgo, rfl⟩ := Option.map_eq_some_iff.1 h
    obtain ⟨htext, hoffset⟩ := trim?_go_eq_some hgo
    exact ⟨⟨htext.trans hs.start_text, hs.stop_text, by dsimp only; omega⟩, rfl, hoffset⟩
  · simp at h

/-- A span can be cut off at any place in it. -/
theorem trim?_to (hs : s.InOrder text) {cut : Cursor} (hcut : cut.text = text)
    (hle : s.start.offset ≤ cut.offset) (hstop : cut.offset ≤ s.stop.offset) :
    s.trim? (cut.offset - s.start.offset) = some ⟨cut, s.stop⟩ := by
  obtain ⟨u, hafter, -, hu⟩ := Cursor.exists_between (hs.start_text.trans hcut.symm) hle
  have hlen : cut.offset - s.start.offset = byteLength u := by omega
  obtain ⟨d, hd⟩ := trim?_go_append hafter
  obtain ⟨htext, hoffset⟩ := trim?_go_eq_some hd
  have hcutd : d = cut :=
    Cursor.eq_of_offset (htext.trans (hs.start_text.trans hcut.symm)) (by omega)
  rw [trim?, if_pos (by omega), hlen, hafter, hd, hcutd, Option.map_some]

end Span

namespace Pattern

/-- What a pattern finds is a stretch of the text that was searched. -/
theorem inOrder_of_find {p : Pattern} {here : Cursor} {m : PatternMatch}
    (h : p.find here = .ok (some m)) : m.span.InOrder here.text := by
  unfold find at h
  split at h
  · simp at h
  · simp at h
  · rename_i found hsearch
    have hfound := Regex.inOrder_of_search hsearch
    split at h
    · rename_i group others hlook hgroups
      split at h
      · rename_i span hspan
        simp only [Except.ok.injEq, Option.some.injEq] at h
        subst h
        exact (Span.trim?_eq_some hfound hspan).1
      · simp at h
    · simp only [Except.ok.injEq, Option.some.injEq] at h
      subst h
      exact hfound

/-- Where a pattern is found in a text: at offset `at` there is `matched`. A pattern for the whole
    input was looked for from a place that comes before or is the same; a pattern for fragments
    from the start of a fragment. -/
def FoundAt (p : Pattern) (text : List Char) (offset : Nat) (matched : List Char) : Prop :=
  match p.mode with
  | .input => ∃ (here : Cursor) (m : PatternMatch), here.text = text ∧ here.offset ≤ offset ∧
      p.find here = .ok (some m) ∧ m.span.start.offset = offset ∧ m.span.chars = matched
  | .fragment => ∃ (before fragment after : List Char) (m : PatternMatch),
      text = before ++ fragment ++ after ∧ byteLength before ≤ offset ∧
      p.find (Cursor.start fragment) = .ok (some m) ∧
      m.span.start.offset = offset - byteLength before ∧ m.span.chars = matched

/-- What is found is part of the text. -/
theorem FoundAt.isInfix {p : Pattern} {text matched : List Char} {offset : Nat}
    (h : p.FoundAt text offset matched) : matched <:+: text := by
  unfold FoundAt at h
  split at h
  · obtain ⟨here, m, htext, -, hfind, -, rfl⟩ := h
    exact htext ▸ (inOrder_of_find hfind).chars_isInfix
  · obtain ⟨before, fragment, after, m, rfl, -, hfind, -, rfl⟩ := h
    have hin := (inOrder_of_find hfind).chars_isInfix
    rw [Cursor.text_start] at hin
    exact hin.trans ⟨before, after, rfl⟩

end Pattern

end SyntaxHue
