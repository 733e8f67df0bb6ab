import SyntaxHue.Text.Cursor

/-!
# Places in one text

Two cursors in the same text are told apart by their offsets: the one with the greater offset
stands behind the other, and what lies between them is a stretch of the text. The functions that
move a cursor or cut a span are read off from that.
-/

namespace SyntaxHue

theorem byteLength_eq_zero {cs : List Char} : byteLength cs = 0 ↔ cs = [] := by
  cases cs with
  | nil => simp
  | cons c cs =>
    have := c.utf8Size_pos
    simp only [byteLength_cons, reduceCtorEq, iff_false]
    omega

theorem byteLength_toList (s : String) : byteLength s.toList = s.utf8ByteSize := by
  rw [← utf8ByteSize_ofList, String.ofList_toList]

/-- Part of a text is no longer than the text, and as long only if it is all of it. -/
theorem byteLength_le_of_isInfix {us cs : List Char} (h : us <:+: cs) :
    byteLength us ≤ byteLength cs := by
  obtain ⟨pre, post, rfl⟩ := h
  simp only [byteLength_append]
  omega

theorem eq_of_isInfix_of_byteLength {us cs : List Char} (h : us <:+: cs)
    (hlen : byteLength us = byteLength cs) : us = cs := by
  obtain ⟨pre, post, rfl⟩ := h
  simp only [byteLength_append] at hlen
  have hpre : pre = [] := byteLength_eq_zero.1 (by omega)
  have hpost : post = [] := byteLength_eq_zero.1 (by omega)
  simp [hpre, hpost]

/-- A text can be cut in only one way after a number of bytes. -/
theorem append_inj_of_byteLength {us vs us' vs' : List Char} (h : us ++ vs = us' ++ vs')
    (hlen : byteLength us = byteLength us') : us = us' ∧ vs = vs' := by
  rcases List.append_eq_append_iff.1 h with ⟨mid, rfl, rfl⟩ | ⟨mid, rfl, rfl⟩
  all_goals
    simp only [byteLength_append] at hlen
    have hmid : mid = [] := byteLength_eq_zero.1 (by omega)
    simp [hmid]

namespace Cursor

theorem offset_add_byteLength (c : Cursor) : c.offset + byteLength c.after = byteLength c.text := by
  rw [c.offset_eq, text, byteLength_append]

theorem offset_le (c : Cursor) : c.offset ≤ byteLength c.text := by
  have := c.offset_add_byteLength
  omega

/-- What lies between two places of a text. -/
theorem exists_between {c d : Cursor} (ht : c.text = d.text) (h : c.offset ≤ d.offset) :
    ∃ u, c.after = u ++ d.after ∧ d.before.reverse = c.before.reverse ++ u ∧
      d.offset = c.offset + byteLength u := by
  have hoffset : ∀ u, d.before.reverse = c.before.reverse ++ u →
      d.offset = c.offset + byteLength u := by
    intro u hu
    rw [d.offset_eq, c.offset_eq, hu, byteLength_append]
  rcases List.append_eq_append_iff.1 ht with ⟨u, hbefore, hafter⟩ | ⟨u, hbefore, hafter⟩
  · exact ⟨u, hafter, hbefore, hoffset u hbefore⟩
  · -- the stretch lies the other way round, so it has to be empty
    have hu : u = [] := by
      rw [d.offset_eq, c.offset_eq, hbefore, byteLength_append] at h
      exact byteLength_eq_zero.1 (by omega)
    subst hu
    simp only [List.append_nil, List.nil_append] at hbefore hafter
    exact ⟨[], by simp [hafter], by simp [hbefore], hoffset [] (by simp [hbefore])⟩

theorem eq_of_offset {c d : Cursor} (ht : c.text = d.text) (ho : c.offset = d.offset) : c = d := by
  obtain ⟨u, hafter, hbefore, hu⟩ := exists_between ht (Nat.le_of_eq ho)
  have hnil : u = [] := byteLength_eq_zero.1 (by omega)
  subst hnil
  obtain ⟨cb, ca, co, hc⟩ := c
  obtain ⟨db, da, d_o, hd⟩ := d
  simp_all

/-- The place behind the characters `u`, which come next. -/
theorem exists_after {c : Cursor} {u v : List Char} (h : c.after = u ++ v) :
    ∃ d : Cursor, d.text = c.text ∧ d.after = v ∧ d.offset = c.offset + byteLength u ∧
      d.before.reverse = c.before.reverse ++ u := by
  refine ⟨⟨u.reverse ++ c.before, v, c.offset + byteLength u, ?_⟩, ?_, rfl, rfl, ?_⟩
  · simp [c.offset_eq]
  · simp [text, h]
  · simp

theorem next?_eq_some {c d : Cursor} {x : Char} (h : c.next? = some (x, d)) :
    d.text = c.text ∧ c.after = x :: d.after ∧ d.offset = c.offset + x.utf8Size := by
  have ht := text_of_next? h
  unfold next? at h
  split at h
  · simp at h
  · rename_i xs hx
    simp only [Option.some.injEq, Prod.mk.injEq] at h
    obtain ⟨rfl, rfl⟩ := h
    exact ⟨ht, hx, rfl⟩

theorem next?_cons {c : Cursor} {x : Char} {xs : List Char} (h : c.after = x :: xs) :
    ∃ d, c.next? = some (x, d) ∧ d.after = xs := by
  unfold next?
  split
  · simp_all
  · rename_i y ys hy
    simp only [hy, List.cons.injEq] at h
    obtain ⟨rfl, rfl⟩ := h
    exact ⟨_, rfl, rfl⟩

theorem text_of_backBy? {c d : Cursor} {n : Nat} (h : c.backBy? n = some d) : d.text = c.text := by
  induction n generalizing c with
  | zero =>
    simp only [backBy?, Option.some.injEq] at h
    rw [h]
  | succ n ih =>
    obtain ⟨b, hb, hd⟩ := Option.bind_eq_some_iff.1 h
    rw [ih hd, text_of_back? hb]

theorem forwardOver_text (c : Cursor) (rest : List Char) (n : Nat) :
    (c.forwardOver rest n).text = c.text := by
  induction rest generalizing c n with
  | nil => rfl
  | cons _ rest ih =>
    simp only [forwardOver]
    split
    · rfl
    · split
      · rename_i x there hnext
        rw [ih, text_of_next? hnext]
      · rfl

theorem forward_text (c : Cursor) (n : Nat) : (c.forward n).text = c.text :=
  forwardOver_text c c.after n

theorem forwardOver_append {c : Cursor} {u v : List Char} (h : c.after = u ++ v) :
    (c.forwardOver (u ++ v) (byteLength u)).offset = c.offset + byteLength u := by
  induction u generalizing c with
  | nil => cases v <;> simp [forwardOver]
  | cons x u ih =>
    have hpos := x.utf8Size_pos
    obtain ⟨d, hd, hafter⟩ := next?_cons h
    have hoffset := (next?_eq_some hd).2.2
    rw [List.cons_append, forwardOver, if_neg (by simp only [byteLength_cons]; omega), hd]
    simp only [byteLength_cons, Nat.add_sub_cancel_left]
    rw [ih hafter, hoffset, Nat.add_assoc]

/-- Moving forward by the length of what comes next leads behind it. -/
theorem forward_append {c : Cursor} {u v : List Char} (h : c.after = u ++ v) :
    (c.forward (byteLength u)).offset = c.offset + byteLength u := by
  rw [forward, h, forwardOver_append h]

/-- Where moving forward by the length of what comes next leads. -/
theorem forward_over {c : Cursor} {u v : List Char} (h : c.after = u ++ v) :
    (c.forward (byteLength u)).text = c.text ∧ (c.forward (byteLength u)).after = v ∧
      (c.forward (byteLength u)).offset = c.offset + byteLength u := by
  obtain ⟨d, htext, hafter, hoffset, -⟩ := exists_after h
  have hd : c.forward (byteLength u) = d :=
    eq_of_offset (by rw [forward_text, htext]) (by rw [forward_append h, hoffset])
  rw [hd]
  exact ⟨htext, hafter, hoffset⟩

end Cursor

namespace Span

theorem takeBytes_append (u v : List Char) : takeBytes (byteLength u) (u ++ v) = u := by
  induction u with
  | nil => cases v <;> simp [takeBytes]
  | cons c u ih =>
    have := c.utf8Size_pos
    rw [List.cons_append, takeBytes, if_neg (by simp only [byteLength_cons]; omega)]
    simp [ih]

/-- A span with both ends in one text, in order. -/
structure InOrder (s : Span) (text : List Char) : Prop where
  start_text : s.start.text = text
  stop_text : s.stop.text = text
  le : s.start.offset ≤ s.stop.offset

namespace InOrder

variable {s : Span} {text : List Char}

theorem after_eq (h : s.InOrder text) : s.start.after = s.chars ++ s.stop.after := by
  obtain ⟨u, hafter, -, hu⟩ := Cursor.exists_between (h.start_text.trans h.stop_text.symm) h.le
  have hlen : s.stop.offset - s.start.offset = byteLength u := by omega
  rw [chars, hlen, hafter, takeBytes_append]

theorem byteLength_chars (h : s.InOrder text) : byteLength s.chars = s.length := by
  have hstart := s.start.offset_add_byteLength
  have hstop := s.stop.offset_add_byteLength
  rw [h.start_text, h.after_eq, byteLength_append] at hstart
  rw [h.stop_text] at hstop
  rw [length]
  omega

theorem stop_offset (h : s.InOrder text) :
    s.stop.offset = s.start.offset + byteLength s.chars := by
  have := h.le
  rw [h.byteLength_chars, length]
  omega

/-- The text before a span, in it, and behind it. -/
theorem text_eq (h : s.InOrder text) :
    text = s.start.before.reverse ++ (s.chars ++ s.stop.after) := by
  rw [← h.after_eq, ← h.start_text, Cursor.text]

/-- A span that is not empty begins with what comes next at its start. -/
theorem head_chars (h : s.InOrder text) (hlt : s.start.offset < s.stop.offset) :
    s.chars.head? = s.start.after.head? := by
  have hlength := h.stop_offset
  rw [h.after_eq]
  cases hchars : s.chars with
  | nil =>
    rw [hchars, byteLength_nil] at hlength
    omega
  | cons c cs => rfl

theorem chars_isInfix (h : s.InOrder text) : s.chars <:+: text :=
  ⟨s.start.before.reverse, s.stop.after, by rw [h.text_eq, List.append_assoc]⟩

end InOrder

end Span

end SyntaxHue
