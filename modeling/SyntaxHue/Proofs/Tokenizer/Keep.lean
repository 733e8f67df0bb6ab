import SyntaxHue.Proofs.Tokenizer.Depth
import SyntaxHue.Proofs.Tokenizer.Tree

/-!
# Tokens are kept or covered

A change of the stream leaves every token where it is, or covers it with the token that it makes.
Only a pattern for the whole input covers tokens, and then as a whole: its match starts in no token
and ends inside none. What one change does to a token, a whole run does as well, since what covers
a token may be covered again.
-/

namespace SyntaxHue

namespace Tokenizer

namespace Change

/-- The change covers the token at an offset by its own token, which is among the nodes. -/
def Over (d : Change) (nodes : List Node) (offset : Nat) (t : Token) : Prop :=
  d.candidate.pattern.mode = .input ∧ ∃ u, d.token = .token u ∧ TokenAt nodes d.start u ∧
    d.start ≤ offset ∧ offset + t.length ≤ d.start + u.length

/-- A pattern for fragments removes no token. A match in the whole input starts in no token, and
    ends inside none. -/
structure Spares (d : Change) : Prop where
  of_fragment : d.candidate.pattern.mode = .fragment →
    ∀ offset t, TokenAt d.old offset t → TokenAt d.new offset t
  of_input : d.candidate.pattern.mode = .input → ∀ offset t, TokenAt d.old offset t →
    ¬ (offset ≤ d.start ∧ d.start < offset + t.length) ∧
      ¬ (offset < d.stop ∧ d.stop < offset + t.length)

variable {l : Level} {text : List Char} {d : Change} {offset : Nat} {t : Token}

theorem Sound.exists_token (h : d.Sound l text) :
    ∃ u, d.token = .token u ∧ u.length = byteLength d.matched := by
  obtain ⟨content, htoken, -⟩ := Level.exists_of_token h.token_eq
  exact ⟨_, htoken, rfl⟩

/-- Where a token of the old stream is: before what is replaced, in it, or behind it. -/
theorem tokenAt_old : TokenAt d.old offset t ↔
    TokenAt d.left offset t ∨
      (∃ k, offset = totalLength d.left + k ∧ TokenAt d.gone k t) ∨
      ∃ k, offset = totalLength d.left + totalLength d.gone + k ∧ TokenAt d.right k t := by
  rw [old, tokenAt_append]
  constructor
  · rintro (h | ⟨k, rfl, h⟩)
    · exact Or.inl h
    · rcases tokenAt_append.1 h with hgone | ⟨k, rfl, hright⟩
      · exact Or.inr (Or.inl ⟨k, rfl, hgone⟩)
      · exact Or.inr (Or.inr ⟨k, (Nat.add_assoc ..).symm, hright⟩)
  · rintro (h | ⟨k, rfl, h⟩ | ⟨k, rfl, h⟩)
    · exact Or.inl h
    · exact Or.inr ⟨k, rfl, tokenAt_append.2 (Or.inl h)⟩
    · exact Or.inr ⟨_, Nat.add_assoc .., tokenAt_append.2 (Or.inr ⟨k, rfl, h⟩)⟩

theorem tokenAt_new_of_left (h : TokenAt d.left offset t) : TokenAt d.new offset t := by
  rw [new]
  exact tokenAt_append.2 (Or.inl h)

/-- What is replaced and what it is replaced by are of one length. -/
theorem Sound.tokenAt_new_of_right (hd : d.Sound l text) {k : Nat} (h : TokenAt d.right k t) :
    TokenAt d.new (totalLength d.left + totalLength d.gone + k) t := by
  obtain ⟨u, hu, hlen⟩ := hd.exists_token
  have hnew : d.new = (d.left ++ (raw d.before ++ (d.token :: raw d.after))) ++ d.right := by
    simp [new]
  rw [hnew]
  refine tokenAt_append.2 (Or.inr ⟨k, ?_, h⟩)
  rw [hd.gone_length, hu]
  simp [hlen]

theorem Sound.tokenAt_token (hd : d.Sound l text) :
    ∃ u, d.token = .token u ∧ TokenAt d.new d.start u ∧ d.start + u.length = d.stop := by
  obtain ⟨u, hu, hlen⟩ := hd.exists_token
  refine ⟨u, hu, ?_, by rw [stop, hlen]⟩
  rw [new, hu]
  refine tokenAt_append.2 (Or.inr ⟨byteLength d.before, rfl, ?_⟩)
  exact tokenAt_append.2 (Or.inr ⟨0, by simp, tokenAt_cons.2 (Or.inl ⟨rfl, rfl⟩)⟩)

/-- A change keeps a token or covers it. -/
theorem Sound.kept (hd : d.Sound l text) (h : TokenAt d.old offset t) :
    TokenAt d.new offset t ∨ d.Over d.new offset t := by
  rcases tokenAt_old.1 h with hleft | ⟨k, rfl, hgone⟩ | ⟨k, rfl, hright⟩
  · exact Or.inl (tokenAt_new_of_left hleft)
  · right
    have hinside := hd.inside k t hgone
    obtain ⟨u, hu, hat, hstop⟩ := hd.tokenAt_token
    refine ⟨?_, u, hu, hat, ?_, ?_⟩
    · cases hmode : d.candidate.pattern.mode with
      | input => rfl
      | fragment =>
        obtain ⟨s, hs⟩ := hd.of_fragment hmode
        rw [hs] at hgone
        simp [tokenAt_cons, not_tokenAt_nil] at hgone
    · rw [start]
      omega
    · rw [hstop, stop, start]
      omega
  · exact Or.inl (hd.tokenAt_new_of_right hright)

theorem Sound.spares (hd : d.Sound l text) : d.Spares := by
  refine ⟨?_, ?_⟩
  · intro hmode offset t h
    rcases hd.kept h with h | ⟨hinput, -⟩
    · exact h
    · simp [hmode] at hinput
  · intro hmode offset t h
    have hlength := hd.gone_length
    have hstart := hd.of_input hmode
    simp only [byteLength_append] at hlength
    rw [stop, start]
    rcases tokenAt_old.1 h with hleft | ⟨k, rfl, hgone⟩ | ⟨k, rfl, -⟩
    · have := hleft.le
      omega
    · have := hd.inside k t hgone
      omega
    · omega

end Change

variable {l : Level} {text : List Char}

/-- The token at an offset is among the nodes, or a change of `log` covers it. -/
def Kept (log : List Change) (nodes : List Node) (offset : Nat) (t : Token) : Prop :=
  TokenAt nodes offset t ∨ ∃ d ∈ log, d.Over nodes offset t

/-- Coverage composes: what covers a token is itself kept or covered. -/
theorem Kept.step {log : List Change} {d : Change} {offset : Nat} {t : Token}
    (hd : d.Sound l text) (h : Kept log d.old offset t) : Kept (log ++ [d]) d.new offset t := by
  rcases h with h | ⟨e, he, hmode, u, hu, hat, hle, hstop⟩
  · rcases hd.kept h with h | h
    · exact Or.inl h
    · exact Or.inr ⟨d, by simp, h⟩
  · rcases hd.kept hat with hat | ⟨hmode', v, hv, hat', hle', hstop'⟩
    · exact Or.inr ⟨e, by simp [he], hmode, u, hu, hat, hle, hstop⟩
    · exact Or.inr ⟨d, by simp, hmode', v, hv, hat', by omega, by omega⟩

theorem Linked.kept {first last : List Node} {log past : List Change} {offset : Nat} {t : Token}
    (h : Linked l text first log last) (ht : Kept past first offset t) :
    Kept (past ++ log) last offset t := by
  induction h generalizing past with
  | nil => rwa [List.append_nil]
  | cons hd _ ih =>
    have hrest := ih (ht.step hd)
    rwa [List.append_assoc, List.singleton_append] at hrest

/-- The streams of linked changes, one for each moment. -/
theorem Linked.exists_get {first last : List Node} {log : List Change}
    (h : Linked l text first log last) {k : Nat} {nodes : List Node}
    (hk : (first :: log.map Change.new)[k]? = some nodes) :
    Linked l text first (log.take k) nodes ∧ Linked l text nodes (log.drop k) last := by
  induction h generalizing k with
  | nil =>
    cases k with
    | zero =>
      cases hk
      exact ⟨.nil, .nil⟩
    | succ k => simp at hk
  | cons hd hrest ih =>
    cases k with
    | zero =>
      cases hk
      exact ⟨.nil, .cons hd hrest⟩
    | succ k =>
      obtain ⟨hbefore, hafter⟩ := ih (k := k) (by simpa using hk)
      exact ⟨.cons hd hbefore, hafter⟩

theorem Linked.kept_get {first last old new : List Node} {log : List Change} {i j offset : Nat}
    {t : Token} (h : Linked l text first log last) (hij : i ≤ j)
    (hold : (first :: log.map Change.new)[i]? = some old)
    (hnew : (first :: log.map Change.new)[j]? = some new) (ht : TokenAt old offset t) :
    Kept (log.take j) new offset t := by
  induction h generalizing i j with
  | nil =>
    cases i with
    | succ i => simp at hold
    | zero =>
      cases j with
      | succ j => simp at hnew
      | zero =>
        cases hold
        cases hnew
        exact Or.inl ht
  | cons hd hrest ih =>
    cases i with
    | zero =>
      cases hold
      obtain ⟨hmid, -⟩ := (Linked.cons hd hrest).exists_get hnew
      rw [← List.nil_append (List.take j _)]
      exact hmid.kept (Or.inl ht)
    | succ i =>
      cases j with
      | zero => omega
      | succ j =>
        rw [List.getElem?_cons_succ, List.map_cons] at hold hnew
        rcases ih (by omega) hold hnew with h | ⟨e, he, hover⟩
        · exact Or.inl h
        · exact Or.inr ⟨e, by simp [he], hover⟩

theorem Linked.getLast {first last : List Node} {log : List Change}
    (h : Linked l text first log last) :
    (first :: log.map Change.new).getLast? = some last := by
  induction h with
  | nil => rfl
  | cons _ _ ih => simpa [List.getLast?_cons_cons] using ih

theorem Linked.sound_get {first last : List Node} {log : List Change} {k : Nat} {d : Change}
    (h : Linked l text first log last) (hk : log[k]? = some d) :
    d.Sound l text ∧ (first :: log.map Change.new)[k]? = some d.old := by
  induction h generalizing k with
  | nil => simp at hk
  | cons hd _ ih =>
    cases k with
    | zero =>
      cases hk
      exact ⟨hd, rfl⟩
    | succ k => simpa using ih (k := k) (by simpa using hk)

/-- In the history of a level a token stays where it is, or is covered by a token of a pattern for
    the whole input. No change removes a token in any other way, and the last stream is what the
    run returns. -/
theorem Level.kept_in_history (l : Level) (text : List Char) :
    (∀ i j old new offset t, i ≤ j → (l.history text)[i]? = some old →
      (l.history text)[j]? = some new → TokenAt old offset t →
        TokenAt new offset t ∨ ∃ d ∈ (l.changes text).take j, d.Over new offset t) ∧
    (∀ k d, (l.changes text)[k]? = some d → (l.history text)[k]? = some d.old ∧
      (l.history text)[k + 1]? = some d.new ∧ d.Spares) ∧
    ∀ nodes, l.run text = .ok nodes → (l.history text).getLast? = some nodes := by
  obtain ⟨last, hlinked⟩ := exists_linked l text
  refine ⟨?_, ?_, ?_⟩
  · intro i j old new offset t hij hold hnew ht
    exact hlinked.kept_get hij hold hnew ht
  · intro k d hk
    obtain ⟨hd, hold⟩ := hlinked.sound_get hk
    refine ⟨hold, ?_, hd.spares⟩
    simp [history, hk]
  · intro nodes h
    exact (linked_of_run h).getLast

/-- The level that `Store.listing` makes of a text with two numbers, one of them in a group. -/
def listingLevel : Level :=
  levelAt Store.listings 1 ⟨0⟩ "a (1) 2".toList

/-- Whether a stream has a token behind the first three bytes. -/
def hasNumber : List Node → Bool
  | .text s :: .token _ :: _ => s.utf8ByteSize == 3
  | _ => false

theorem exists_of_hasNumber {nodes : List Node} (h : hasNumber nodes = true) :
    ∃ t, TokenAt nodes 3 t := by
  unfold hasNumber at h
  split at h
  · rename_i s t more
    exact ⟨t, [.text s], more, rfl, by simpa using h⟩
  · simp at h

/-- The second stream of a run of `listingLevel` has a number that its last one does not have. -/
theorem exists_number : ∃ old new t,
    (listingLevel.history "a (1) 2".toList)[1]? = some old ∧
    (listingLevel.history "a (1) 2".toList)[3]? = some new ∧ TokenAt old 3 t := by
  have hold : (listingLevel.history "a (1) 2".toList)[1]?.any hasNumber = true := by
    decide +kernel
  have hnew : (listingLevel.history "a (1) 2".toList)[3]?.isSome = true := by
    decide +kernel
  obtain ⟨old, hold, hnumber⟩ := (Option.any_eq_true _ _).1 hold
  obtain ⟨new, hnew⟩ := Option.isSome_iff_exists.1 hnew
  obtain ⟨t, ht⟩ := exists_of_hasNumber hnumber
  exact ⟨old, new, t, hold, hnew, ht⟩

theorem kept_in_listing : ∃ old new t,
    (listingLevel.history "a (1) 2".toList)[1]? = some old ∧
    (listingLevel.history "a (1) 2".toList)[3]? = some new ∧ TokenAt old 3 t ∧
    (TokenAt new 3 t ∨
      ∃ d ∈ (listingLevel.changes "a (1) 2".toList).take 3, d.Over new 3 t) := by
  obtain ⟨old, new, t, hold, hnew, ht⟩ := exists_number
  refine ⟨old, new, t, hold, hnew, ht, ?_⟩
  exact (Level.kept_in_history _ _).1 1 3 old new 3 t (by decide) hold hnew ht

end Tokenizer

end SyntaxHue
