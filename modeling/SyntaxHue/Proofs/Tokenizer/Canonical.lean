import SyntaxHue.Proofs.Tokenizer.Invariant

/-!
# Canonical token trees

Raw text is never split without need: in a stream no fragment is empty, and between two fragments
there is a token. A match keeps this, since what is raw before and behind it is put back only if
there is some, the fragment in which it starts has tokens for neighbours, and raw text right behind
the replaced nodes is replaced with them. Only the level of an empty text holds an empty fragment.
-/

namespace SyntaxHue

open Tokenizer

namespace Tokenizer

/-- No fragment is empty, and no two of them lie next to each other. -/
structure Tidy (nodes : List Node) : Prop where
  full : ∀ s, .text s ∈ nodes → s ≠ ""
  apart : nodes.IsChain fun x y => x.isToken = true ∨ y.isToken = true

/-- The nodes of a level over a text. If the text is empty it is the only fragment. -/
def Canonical (level : List Char) (nodes : List Node) : Prop :=
  if level = [] then nodes = [.text ""] else Tidy nodes

namespace Tidy

variable {xs ys : List Node} {t : Token} {s : String}

theorem left (h : Tidy (xs ++ ys)) : Tidy xs :=
  ⟨fun s hs => h.full s (List.mem_append_left ys hs), h.apart.left_of_append⟩

theorem right (h : Tidy (xs ++ ys)) : Tidy ys :=
  ⟨fun s hs => h.full s (List.mem_append_right xs hs), h.apart.right_of_append⟩

/-- Before a fragment there is a token. -/
theorem isToken_before (h : Tidy (xs ++ .text s :: ys)) : ∀ x ∈ xs.getLast?, x.isToken = true := by
  intro x hx
  obtain ⟨-, -, hjoin⟩ := List.isChain_append.1 h.apart
  rcases hjoin x hx (.text s) rfl with hx | hs
  · exact hx
  · exact absurd hs (by simp [Node.isToken])

/-- Behind a fragment there is a token. -/
theorem isToken_behind (h : Tidy (.text s :: ys)) : ∀ y ∈ ys.head?, y.isToken = true := by
  intro y hy
  rcases (List.isChain_cons.1 h.apart).1 y hy with hs | hy
  · exact absurd hs (by simp [Node.isToken])
  · exact hy

/-- A token keeps apart what is before it and what is behind it. -/
theorem append_token (hxs : Tidy xs) (hys : Tidy ys) : Tidy (xs ++ .token t :: ys) := by
  refine ⟨?_, ?_⟩
  · intro s hs
    rw [List.mem_append, List.mem_cons] at hs
    rcases hs with hs | hs | hs
    · exact hxs.full s hs
    · simp at hs
    · exact hys.full s hs
  · rw [List.isChain_append, List.isChain_cons]
    refine ⟨hxs.apart, ⟨fun y _ => Or.inl rfl, hys.apart⟩, ?_⟩
    rintro x - y ⟨⟩
    exact Or.inr rfl

theorem ofList_ne_empty {cs : List Char} (hcs : ¬ cs.isEmpty = true) : String.ofList cs ≠ "" := by
  intro heq
  have hlist := congrArg String.toList heq
  rw [String.toList_ofList] at hlist
  exact hcs (by simp [hlist])

/-- Raw text may be put behind a token. -/
theorem append_raw (h : Tidy xs) (hlast : ∀ x ∈ xs.getLast?, x.isToken = true) (cs : List Char) :
    Tidy (xs ++ raw cs) := by
  unfold raw
  by_cases hcs : cs.isEmpty = true
  · rwa [if_pos hcs, List.append_nil]
  · rw [if_neg hcs]
    refine ⟨?_, ?_⟩
    · intro s hs
      rw [List.mem_append, List.mem_singleton] at hs
      rcases hs with hs | hs
      · exact h.full s hs
      · cases hs
        exact ofList_ne_empty hcs
    · rw [List.isChain_append]
      refine ⟨h.apart, .singleton _, ?_⟩
      intro x hx y _
      exact Or.inl (hlast x hx)

/-- Raw text may be put before a token. -/
theorem raw_append (h : Tidy ys) (hhead : ∀ y ∈ ys.head?, y.isToken = true) (cs : List Char) :
    Tidy (raw cs ++ ys) := by
  unfold raw
  by_cases hcs : cs.isEmpty = true
  · rwa [if_pos hcs, List.nil_append]
  · rw [if_neg hcs, List.singleton_append]
    refine ⟨?_, ?_⟩
    · intro s hs
      rw [List.mem_cons] at hs
      rcases hs with hs | hs
      · cases hs
        exact ofList_ne_empty hcs
      · exact h.full s hs
    · rw [List.isChain_cons]
      exact ⟨fun y hy => Or.inr (hhead y hy), h.apart⟩

end Tidy

/-! ### What a match replaces -/

/-- Raw text right behind what is covered is covered as well. -/
theorem isToken_of_coverUpTo {goal offset covered reach : Nat} {nodes left : List Node}
    (h : coverUpTo goal nodes offset = some (covered, left, reach)) :
    ∀ node ∈ left.head?, node.isToken = true := by
  induction nodes generalizing offset covered with
  | nil =>
    cases h
    simp
  | cons node nodes ih =>
    rw [coverUpTo] at h
    by_cases hcover : (offset < goal || !node.isToken) = true
    · rw [if_pos hcover] at h
      split at h
      · simp at h
      · obtain ⟨⟨n, more, stop⟩, hmore, heq⟩ := Option.map_eq_some_iff.1 h
        cases heq
        exact ih hmore
    · rw [if_neg hcover] at h
      cases h
      rintro _ ⟨⟩
      simp only [Bool.or_eq_true, not_or, Bool.not_eq_true', Bool.not_eq_false] at hcover
      exact hcover.2

variable {l : Level} {text : List Char} {m : Making}

/-- Behind what is replaced there is a token, in a tidy stream. -/
theorem Making.Sound.isToken_rest (h : m.Sound l text) (htidy : Tidy m.frame.nodes)
    {gone : List Node}
    (hfits : m.hit.Fits m.candidate.pattern m.frame.nodes m.frame.here gone) :
    ∀ node ∈ m.hit.rest.head?, node.isToken = true := by
  obtain ⟨s, more, -, hlook⟩ := h.exists_look
  cases hmode : m.candidate.pattern.mode with
  | fragment =>
    obtain ⟨u, rfl⟩ := hfits.of_fragment hmode
    rw [hfits.nodes_eq] at htidy
    exact htidy.right.isToken_behind
  | input =>
    rw [look, hmode] at hlook
    obtain ⟨_, _, _, -, -, -, -, -, hcover⟩ := of_lookInInput hlook
    exact isToken_of_coverUpTo hcover

/-- A match keeps a stream tidy. -/
theorem Making.Sound.tidy (h : m.Sound l text) (htidy : Tidy m.change.old) :
    Tidy m.change.new := by
  obtain ⟨gone, hfits⟩ := h.exists_fits
  rw [h.old_eq] at htidy
  have hrest := h.isToken_rest htidy.right hfits
  obtain ⟨content, htoken, -⟩ := Level.exists_of_token h.token_eq
  obtain ⟨s, behind, rfl⟩ := hfits.exists_text
  rw [hfits.nodes_eq, ← List.append_assoc] at htidy
  have hfront := htidy.left.append_raw htidy.isToken_before m.hit.before
  have hback : Tidy (raw m.hit.after ++ m.hit.rest) :=
    htidy.right.right.raw_append hrest m.hit.after
  have hnew : m.change.new =
      m.left ++ m.hit.passed ++ raw m.hit.before ++ m.token :: (raw m.hit.after ++ m.hit.rest) := by
    simp [change, Change.ofHit, Change.new]
  rw [hnew, htoken]
  exact hfront.append_token hback

theorem tidy_opening (htext : text ≠ []) : Tidy (Level.opening text) := by
  refine ⟨?_, .singleton _⟩
  rintro s hs
  cases List.mem_singleton.1 hs
  exact Tidy.ofList_ne_empty (by simpa using htext)

/-- The nodes that a run returns are in canonical form. -/
theorem canonical_of_run {nodes : List Node} (hbytes : l.bytes = byteLength text)
    (h : l.run text = .ok nodes) : Canonical text nodes := by
  unfold Canonical
  by_cases htext : text = []
  · rw [if_pos htext]
    subst htext
    -- the one fragment is more nodes than there are bytes
    have hkeep : ∀ m : Making, m.Sound l [] → m.change.old = [.text ""] →
        m.change.new = [.text ""] := by
      intro m hm hold
      have hle := hm.length_old_le
      rw [hold, hbytes] at hle
      simp at hle
    exact (Level.holds_in_history (I := (· = [.text ""])) rfl hkeep).2 nodes h
  · rw [if_neg htext]
    exact (Level.holds_in_history (tidy_opening htext) fun m hm => hm.tidy).2 nodes h

end Tokenizer

namespace Store

variable {s : Store} {text : String} {grammar : GrammarId} {nodes : List Node}

/-- Every level of a token tree is in canonical form. -/
theorem canonical_of_tokenize (h : s.tokenize text grammar = .ok nodes) :
    ∀ level children, Sublevel text.toList nodes level children → Canonical level children := by
  intro level children hsub
  obtain ⟨l, hbytes, hrun⟩ := exists_run_of_sublevel h hsub
  exact canonical_of_run hbytes hrun

/-- A grammar that tokenizes the empty text before every fragment with a grammar of its own. -/
def hollow : GrammarDef :=
  .ofRules [.mk "gap" [.mk { source := "x*" } (.grammar (.ofRules [.mk "y" [.plain "y"]] none))]]
    none

/-- The store with the grammar `hollow`. -/
def hollows : Store :=
  match empty.define "hollow" hollow with
  | .ok (_, s) => s
  | .error _ => empty

/-- Whether the first node is a token with nodes in it and an empty text. -/
def startsHollow : List Node → Bool
  | .token (.mk _ (.nested below) _ _) :: _ => (flattenAll below).isEmpty
  | _ => false

theorem exists_tokenize_hollows : ∃ nodes, hollows.tokenize "a" ⟨0⟩ = .ok nodes ∧
    startsHollow nodes = true := by
  have hany : ((hollows.tokenize "a" ⟨0⟩).toOption.any startsHollow) = true := by
    decide +kernel
  cases h : hollows.tokenize "a" ⟨0⟩ with
  | error e => simp [h, Except.toOption] at hany
  | ok nodes =>
    rw [h] at hany
    exact ⟨nodes, rfl, by simpa [Except.toOption] using hany⟩

theorem canonical_of_tokenize_hollow : ∃ nodes below,
    hollows.tokenize "a" ⟨0⟩ = .ok nodes ∧ Sublevel "a".toList nodes [] below ∧
      Canonical [] below ∧ Canonical "a".toList nodes := by
  obtain ⟨nodes, h, hhollow⟩ := exists_tokenize_hollows
  unfold startsHollow at hhollow
  split at hhollow
  · rename_i kind below aliases length more
    have hempty : (flattenAll below).toList = [] := by
      simpa using hhollow
    have hbelow : Sublevel (flattenAll below).toList below [] below := by
      rw [hempty]
      exact .whole
    have hsub : Sublevel "a".toList (.token ⟨kind, .nested below, aliases, length⟩ :: more) []
        below := by
      refine .inside List.mem_cons_self rfl ?_
      rw [Token.flatten_eq, Token.content, Content.flatten]
      exact hbelow
    have hall := canonical_of_tokenize h
    exact ⟨_, below, h, hsub, hall _ _ hsub, hall _ _ .whole⟩
  · simp at hhollow

end Store

end SyntaxHue
