import SyntaxHue.Proofs.Pattern
import SyntaxHue.Proofs.Tokenizer.Cover

/-!
# What a pattern makes of a fragment

`look` works with three measures: offsets in the whole text, offsets in a fragment, and numbers
of nodes. `Hit.Fits` says in terms of the text alone what a hit replaces. The main statement is
`fits_of_look`: whatever `look` returns fits the nodes that it was given.
-/

namespace SyntaxHue

namespace Tokenizer

/-- A hit replaces the nodes `gone` of `nodes`, which start at `here`. They stand for the text
    before, in and behind the match; their tokens lie behind the start of the match and end no
    later than it. -/
structure Hit.Fits (h : Hit) (p : Pattern) (nodes : List Node) (here : Cursor)
    (gone : List Node) : Prop where
  nodes_eq : nodes = h.passed ++ (gone ++ h.rest)
  covered_eq : h.covered = gone.length
  after_eq : ∃ pre post, here.after = pre ++ ((h.before ++ (h.matched ++ h.after)) ++ post) ∧
    byteLength pre = totalLength h.passed
  gone_length : totalLength gone = byteLength (h.before ++ (h.matched ++ h.after))
  start_text : h.start.text = here.text
  stop_text : h.stop.text = here.text
  start_offset : h.start.offset = here.offset + totalLength h.passed + byteLength h.before
  stop_offset : h.stop.offset = h.start.offset + byteLength h.matched
  found : p.FoundAt here.text h.start.offset h.matched
  inside : ∀ k t, TokenAt gone k t → byteLength h.before < k ∧
    k + t.length ≤ byteLength h.before + byteLength h.matched
  /-- A pattern for fragments replaces one of them. -/
  of_fragment : p.mode = .fragment → ∃ s, gone = [.text s]
  /-- A match in the whole input starts before the end of what is replaced. -/
  of_input : p.mode = .input → byteLength h.before < totalLength gone

/-- What is replaced begins with a fragment. -/
theorem Hit.Fits.exists_text {h : Hit} {p : Pattern} {nodes gone : List Node} {here : Cursor}
    (hfits : h.Fits p nodes here gone) : ∃ s behind, gone = .text s :: behind := by
  cases gone with
  | nil =>
    exfalso
    cases hmode : p.mode with
    | fragment => simpa using hfits.of_fragment hmode
    | input => simpa using hfits.of_input hmode
  | cons node behind =>
    cases node with
    | text s => exact ⟨s, behind, rfl⟩
    | token t =>
      have hinside := hfits.inside 0 t (tokenAt_cons.2 (Or.inl ⟨rfl, rfl⟩))
      omega

/-- What `look` returns for the nodes that start at `here`. -/
def Look.Fits (p : Pattern) (nodes : List Node) (here : Cursor) : Look → Prop
  | .stop => True
  | .skip passed rest there =>
    nodes = passed ++ rest ∧ passed ≠ [] ∧ there.text = here.text ∧
      there.offset = here.offset + totalLength passed
  | .hit h => ∃ gone, h.Fits p nodes here gone

theorem passUpTo_eq {goal offset stop : Nat} {nodes passed rest : List Node}
    (h : passUpTo goal nodes offset = (passed, rest, stop)) :
    nodes = passed ++ rest ∧ stop = offset + totalLength passed ∧ (offset ≤ goal → stop ≤ goal) ∧
      ∀ first others, rest = first :: others → goal < stop + first.length := by
  induction nodes generalizing offset passed with
  | nil =>
    simp only [passUpTo, Prod.mk.injEq] at h
    obtain ⟨rfl, rfl, rfl⟩ := h
    simp
  | cons node nodes ih =>
    simp only [passUpTo] at h
    split at h
    · rename_i hle
      simp only [Prod.mk.injEq] at h
      obtain ⟨rfl, hrest, hstop⟩ := h
      obtain ⟨heq, hoffset, hgoal, hfirst⟩ := ih (Prod.ext rfl (Prod.ext hrest hstop))
      refine ⟨?_, ?_, fun _ => hgoal hle, hfirst⟩
      · rw [List.cons_append, ← heq]
      · rw [totalLength_cons, ← Nat.add_assoc]
        exact hoffset
    · rename_i hlt
      simp only [Prod.mk.injEq] at h
      obtain ⟨rfl, rfl, rfl⟩ := h
      refine ⟨rfl, rfl, id, ?_⟩
      intro first others heq
      simp only [List.cons.injEq] at heq
      obtain ⟨rfl, rfl⟩ := heq
      omega

theorem coverUpTo_eq {goal offset covered reach : Nat} {nodes left : List Node}
    (h : coverUpTo goal nodes offset = some (covered, left, reach)) :
    ∃ gone, nodes = gone ++ left ∧ covered = gone.length ∧ reach = offset + totalLength gone ∧
      (left = [] ∨ goal ≤ reach) ∧
      (∀ s others, nodes = .text s :: others → ∃ more, gone = .text s :: more) ∧
      ∀ k t, TokenAt gone k t → offset + k < goal ∧ offset + k + t.length ≤ goal := by
  induction nodes generalizing offset covered with
  | nil =>
    simp only [coverUpTo, Option.some.injEq, Prod.mk.injEq] at h
    obtain ⟨rfl, rfl, rfl⟩ := h
    exact ⟨[], rfl, rfl, rfl, Or.inl rfl, by simp, fun _ _ ht => absurd ht not_tokenAt_nil⟩
  | cons node nodes ih =>
    simp only [coverUpTo] at h
    split at h
    · rename_i hcover
      split at h
      · simp at h
      · rename_i hsplit
        obtain ⟨⟨n, more, stop⟩, hmore, heq⟩ := Option.map_eq_some_iff.1 h
        simp only [Prod.mk.injEq] at heq
        obtain ⟨rfl, rfl, rfl⟩ := heq
        obtain ⟨gone, rfl, rfl, hstop, hleft, -, hinside⟩ := ih hmore
        refine ⟨node :: gone, rfl, rfl, by rw [hstop, totalLength_cons, Nat.add_assoc], hleft,
          ?_, ?_⟩
        · intro s others heq
          simp only [List.cons.injEq] at heq
          exact ⟨gone, by rw [heq.1]⟩
        intro k t ht
        rcases tokenAt_cons.1 ht with ⟨rfl, rfl⟩ | ⟨k, rfl, ht'⟩
        · have hbegin : offset < goal := by simpa [Node.isToken] using hcover
          have hend : ¬ goal < offset + t.length := by
            intro hlt
            exact hsplit (by simp [Node.isToken, hlt])
          omega
        · have := hinside _ t ht'
          omega
    · rename_i hcover
      simp only [Option.some.injEq, Prod.mk.injEq] at h
      obtain ⟨rfl, rfl, rfl⟩ := h
      refine ⟨[], rfl, rfl, rfl, Or.inr ?_, ?_, fun _ _ ht => absurd ht not_tokenAt_nil⟩
      · simp at hcover
        exact hcover.1
      · intro s others heq
        simp only [List.cons.injEq] at heq
        simp [heq.1, Node.isToken] at hcover

variable {P : Nat → List Char → Token → Prop} {p : Pattern} {s : String} {more : List Node}
  {here : Cursor} {r : Look}

theorem fits_of_lookInFragment (hcovers : Covers P here.offset here.after (.text s :: more))
    (h : lookInFragment p s more here = .ok r) (hmode : p.mode = .fragment) :
    r.Fits p (.text s :: more) here := by
  obtain ⟨cs, hafter, -⟩ := hcovers.exists_of_text
  unfold lookInFragment at h
  cases hfind : p.find (Cursor.start s.toList) with
  | error e => simp [hfind, bind, Except.bind] at h
  | ok found =>
    cases found with
    | none =>
      simp only [hfind, bind, Except.bind, pure, Except.pure, Except.ok.injEq] at h
      subst h
      obtain ⟨htext, -, hoffset⟩ := Cursor.forward_over hafter
      rw [byteLength_toList] at htext hoffset
      exact ⟨rfl, by simp, htext, by simp [hoffset]⟩
    | some m =>
      simp only [hfind, bind, Except.bind, pure, Except.pure, Except.ok.injEq] at h
      subst h
      have horder := Pattern.inOrder_of_find hfind
      rw [Cursor.text_start] at horder
      have hs : s.toList = m.span.start.before.reverse ++ (m.span.chars ++ m.span.stop.after) :=
        horder.text_eq
      have hsize : s.utf8ByteSize =
          byteLength (m.span.start.before.reverse ++ (m.span.chars ++ m.span.stop.after)) := by
        rw [← hs, byteLength_toList]
      -- the start of the match and its end, as places in the whole text
      have hafter' : here.after = m.span.start.before.reverse ++
          (m.span.chars ++ (m.span.stop.after ++ cs)) := by
        rw [hafter, hs]
        simp
      obtain ⟨hstartText, hstartAfter, hstart⟩ := Cursor.forward_over hafter'
      rw [← m.span.start.offset_eq] at hstartText hstartAfter hstart
      obtain ⟨hstopText, -, hstop⟩ := Cursor.forward_over hstartAfter
      rw [horder.byteLength_chars] at hstopText hstop
      refine ⟨[.text s], rfl, rfl, ⟨[], cs, ?_, rfl⟩, ?_, hstartText, hstopText.trans hstartText,
        ?_, ?_, ?_, ?_, fun _ => ⟨s, rfl⟩, ?_⟩
      · rw [hafter, hs, List.nil_append]
      · simpa using hsize
      · rw [hstart, totalLength_nil, Nat.add_zero, m.span.start.offset_eq]
      · simp [hstop, horder.byteLength_chars]
      · unfold Pattern.FoundAt
        simp only [hmode]
        refine ⟨here.before.reverse, s.toList, cs, m, ?_, ?_, hfind, ?_, rfl⟩
        · rw [Cursor.text, hafter, List.append_assoc]
        · simp only [hstart, ← here.offset_eq]
          omega
        · simp only [hstart, ← here.offset_eq]
          omega
      · intro k t ht
        simp [tokenAt_cons, not_tokenAt_nil] at ht
      · simp [hmode]

/-- Passing nodes and the one after them. -/
theorem fits_skip {passed others : List Node} {first : Node}
    (hcovers : Covers P here.offset here.after (passed ++ first :: others)) :
    (Look.skip (passed ++ [first]) others
      ((here.forward (totalLength passed)).forward first.length)).Fits p
        (passed ++ first :: others) here := by
  obtain ⟨us, vs, hafter, hus, hvs⟩ := hcovers.exists_append
  obtain ⟨ws, xs, hws, hfirst, -⟩ := hvs.exists_cons
  have hlen : first.length = byteLength ws := by simpa using hfirst.totalLength_eq
  obtain ⟨hstartText, hstartAfter, hstart⟩ := Cursor.forward_over hafter
  obtain ⟨hstopText, -, hstop⟩ := Cursor.forward_over (hstartAfter.trans hws)
  rw [← hus.totalLength_eq] at hstartText hstart hstopText hstop
  rw [← hlen] at hstopText hstop
  refine ⟨by simp, by simp, hstopText.trans hstartText, ?_⟩
  rw [hstop, hstart, totalLength_append, totalLength_cons, totalLength_nil, Nat.add_zero,
    Nat.add_assoc]

/-- A match that starts in the raw text `first` replaces it and the nodes up to its end. -/
theorem fits_merged {passed left behind : List Node} {first : String} {start : Cursor}
    {m : PatternMatch} {reach : Nat}
    (hcovers : Covers P here.offset here.after (passed ++ (.text first :: behind ++ left)))
    (hmode : p.mode = .input) (hfind : p.find here = .ok (some m))
    (hstart : start = here.forward (totalLength passed))
    (hle : start.offset ≤ m.span.start.offset)
    (hgoal : m.span.start.offset < start.offset + first.utf8ByteSize)
    (hreach : reach = start.offset + totalLength (.text first :: behind))
    (hleft : left = [] ∨ m.span.stop.offset ≤ reach)
    (hinside : ∀ k t, TokenAt (.text first :: behind) k t →
      start.offset + k < m.span.stop.offset ∧ start.offset + k + t.length ≤ m.span.stop.offset) :
    Hit.Fits ⟨passed, (.text first :: behind : List Node).length, left,
      Span.chars ⟨start, m.span.start⟩, m.span.chars,
      Span.takeBytes (reach - m.span.stop.offset) m.span.stop.after, m.span.start, m.span.stop,
      reach⟩ p (passed ++ (.text first :: behind ++ left)) here (.text first :: behind) := by
  obtain ⟨us, vs, hafter, hus, hvs⟩ := hcovers.exists_append
  obtain ⟨gs, ws, hcut, hgs, hws⟩ := hvs.exists_append
  obtain ⟨hstartText, hstartAfter, hstartOffset⟩ := Cursor.forward_over hafter
  rw [← hus.totalLength_eq, ← hstart] at hstartText hstartAfter hstartOffset
  rw [hcut] at hstartAfter
  have horder := Pattern.inOrder_of_find hfind
  have hlen := hgs.totalLength_eq
  -- the end of the replaced nodes, as a place
  obtain ⟨d, hdText, hdAfter, hd, -⟩ := Cursor.exists_after hstartAfter
  have hdr : d.offset = reach := by omega
  have hstop : m.span.stop.offset ≤ d.offset := by
    rcases hleft with rfl | hleft
    · have hend := d.offset_add_byteLength
      have hrest := hws.totalLength_eq
      have hbound := m.span.stop.offset_le
      rw [horder.stop_text] at hbound
      rw [hdText, hstartText, hdAfter, ← hrest, totalLength_nil] at hend
      omega
    · omega
  have hbefore : Span.InOrder ⟨start, m.span.start⟩ here.text :=
    ⟨hstartText, horder.start_text, hle⟩
  have hbehind : Span.InOrder ⟨m.span.stop, d⟩ here.text :=
    ⟨horder.stop_text, hdText.trans hstartText, hstop⟩
  have hchars : Span.takeBytes (reach - m.span.stop.offset) m.span.stop.after =
      Span.chars ⟨m.span.stop, d⟩ := by rw [Span.chars, hdr]
  have hlenBefore := hbefore.stop_offset
  have hlenMatched := horder.stop_offset
  have hlenBehind := hbehind.stop_offset
  simp only at hlenBefore hlenBehind
  refine ⟨rfl, rfl, ⟨us, ws, ?_, hus.totalLength_eq.symm⟩, ?_, horder.start_text,
    horder.stop_text, ?_, hlenMatched, ?_, ?_, by simp [hmode], ?_⟩
  · rw [hbefore.after_eq, horder.after_eq, hbehind.after_eq, hdAfter] at hstartAfter
    rw [hafter, hcut, hchars]
    simpa using hstartAfter.symm
  · simp only [byteLength_append, hchars]
    omega
  · dsimp only
    omega
  · unfold Pattern.FoundAt
    simp only [hmode]
    exact ⟨here, m, rfl, by omega, hfind, rfl, rfl⟩
  · intro k t ht
    have hend := hinside k t ht
    rcases tokenAt_cons.1 ht with ⟨heq, -⟩ | ⟨k, rfl, -⟩
    · simp at heq
    · simp only [Node.length_text] at hend ⊢
      omega
  · intro _
    rw [totalLength_cons, Node.length_text]
    dsimp only
    omega

theorem fits_of_lookInInput (hcovers : Covers P here.offset here.after (.text s :: more))
    (h : lookInInput p (.text s :: more) here = .ok r) (hmode : p.mode = .input) :
    r.Fits p (.text s :: more) here := by
  unfold lookInInput at h
  cases hfind : p.find here with
  | error e => simp [hfind, bind, Except.bind] at h
  | ok found =>
  cases found with
  | none =>
    simp only [hfind, bind, Except.bind, pure, Except.pure, Except.ok.injEq] at h
    subst h
    trivial
  | some m =>
  simp only [hfind, bind, Except.bind, pure, Except.pure] at h
  split at h
  · cases h
    trivial
  · -- the nodes that are passed, and the node in which the match starts
    generalize hpass : passUpTo m.span.start.offset (.text s :: more) here.offset = pass at h
    obtain ⟨passed, rest, offset⟩ := pass
    obtain ⟨hnodes, hoffset, -, hfirst⟩ := passUpTo_eq hpass
    rw [hnodes] at hcovers ⊢
    have hsub : offset - here.offset = totalLength passed := by omega
    have hstart := hcovers.forward_offset
    cases rest with
    | nil =>
      cases h
      trivial
    | cons first others =>
    simp only [hsub] at h
    split at h
    · cases h
      exact fits_skip hcovers
    · rename_i hfirstText
      split at h
      · cases h
        exact fits_skip hcovers
      · rename_i covered left reach hcover
        split at h
        · simp at h
        · rename_i hle
          cases h
          cases first with
          | token t => simp [Node.isToken] at hfirstText
          | text first =>
          rw [hoffset, ← hstart] at hfirst hcover
          obtain ⟨gone, hgone, rfl, hreach, hleft, hcons, hinside⟩ := coverUpTo_eq hcover
          obtain ⟨behind, rfl⟩ := hcons _ _ rfl
          rw [hgone] at hcovers ⊢
          exact ⟨_, fits_merged hcovers hmode hfind rfl (Nat.le_of_not_lt hle) (hfirst _ _ rfl)
            hreach hleft hinside⟩

theorem fits_of_look (hcovers : Covers P here.offset here.after (.text s :: more))
    (h : look p s more here = .ok r) : r.Fits p (.text s :: more) here := by
  unfold look at h
  split at h
  · rename_i hmode
    exact fits_of_lookInFragment hcovers h hmode
  · rename_i hmode
    exact fits_of_lookInInput hcovers h hmode

/-- A pattern is the cause of a fault: a search fails, or finds a match before its start. -/
def Blames (p : Pattern) (e : Fault) : Prop :=
  (∃ here, p.find here = .error e) ∨
    e = .startsBehind ∧
      ∃ here m, p.find here = .ok (some m) ∧ m.span.start.offset < here.offset

/-- No pattern is the cause of a tokenization without end. -/
theorem Blames.ne_endless {e : Fault} (h : Blames p e) : e ≠ .endless := by
  rcases h with ⟨here, hfind⟩ | ⟨rfl, -⟩
  · intro he
    rw [he] at hfind
    unfold Pattern.find at hfind
    split at hfind
    · simp at hfind
    · simp at hfind
    · split at hfind
      · split at hfind <;> simp at hfind
      · simp at hfind
  · simp

theorem blames_of_look {e : Fault} (hcovers : Covers P here.offset here.after (.text s :: more))
    (h : look p s more here = .error e) : Blames p e := by
  unfold look at h
  split at h
  · unfold lookInFragment at h
    cases hfind : p.find (Cursor.start s.toList) with
    | error e' =>
      simp only [hfind, bind, Except.bind, Except.error.injEq] at h
      exact Or.inl ⟨_, h ▸ hfind⟩
    | ok found => cases found <;> simp [hfind, bind, Except.bind, pure, Except.pure] at h
  · unfold lookInInput at h
    cases hfind : p.find here with
    | error e' =>
      simp only [hfind, bind, Except.bind, Except.error.injEq] at h
      exact Or.inl ⟨_, h ▸ hfind⟩
    | ok found =>
    cases found with
    | none => simp [hfind, bind, Except.bind, pure, Except.pure] at h
    | some m =>
    simp only [hfind, bind, Except.bind, pure, Except.pure] at h
    split at h
    · simp at h
    · generalize hpass : passUpTo m.span.start.offset (.text s :: more) here.offset = pass at h
      obtain ⟨passed, rest, offset⟩ := pass
      obtain ⟨hnodes, hoffset, hgoal, -⟩ := passUpTo_eq hpass
      rw [hnodes] at hcovers
      have hsub : offset - here.offset = totalLength passed := by omega
      have hstart := hcovers.forward_offset
      cases rest with
      | nil => simp at h
      | cons first others =>
      simp only [hsub] at h
      split at h
      · simp at h
      split at h
      · simp at h
      split at h
      · rename_i hlt
        rw [hstart] at hlt
        refine Or.inr ⟨(Except.error.inj h).symm, here, m, hfind, ?_⟩
        refine Nat.lt_of_not_le fun hle => ?_
        have := hgoal (by omega)
        omega
      · simp at h

end Tokenizer

end SyntaxHue
