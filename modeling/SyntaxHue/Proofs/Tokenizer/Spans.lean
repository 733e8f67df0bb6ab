import SyntaxHue.Proofs.Tokenizer.Keep

/-!
# Spans of tokens

The spans of the tokens of a kind, in order. Patterns that look at fragments and make tokens of
other kinds have no part in them. What a token covers stays covered, whatever patterns come later,
and then no token can have a span that overlaps with it.
-/

namespace SyntaxHue

namespace Tokenizer

/-- Where the tokens of a kind start and stop, among nodes that start at an offset. -/
def spansOf (kind : String) : Nat → List Node → List (Nat × Nat)
  | _, [] => []
  | offset, .text s :: nodes => spansOf kind (offset + s.utf8ByteSize) nodes
  | offset, .token t :: nodes =>
    let stop := offset + t.length
    if t.kind = kind then (offset, stop) :: spansOf kind stop nodes else spansOf kind stop nodes

/-- A token covers the bytes from `start` to `stop`. -/
def Covered (start stop : Nat) (nodes : List Node) : Prop :=
  ∃ offset t, TokenAt nodes offset t ∧ offset ≤ start ∧ stop ≤ offset + t.length

section

variable {kind : String} {offset offset' : Nat} {t t' : Token} {nodes : List Node}

theorem spansOf_text {s : String} :
    spansOf kind offset (.text s :: nodes) = spansOf kind (offset + s.utf8ByteSize) nodes := rfl

theorem spansOf_token (ht : t.kind = kind) : spansOf kind offset (.token t :: nodes) =
    (offset, offset + t.length) :: spansOf kind (offset + t.length) nodes := by
  simp [spansOf, ht]

theorem spansOf_token_of_ne (ht : t.kind ≠ kind) :
    spansOf kind offset (.token t :: nodes) = spansOf kind (offset + t.length) nodes := by
  simp [spansOf, ht]

theorem spansOf_append (xs ys : List Node) : spansOf kind offset (xs ++ ys) =
    spansOf kind offset xs ++ spansOf kind (offset + totalLength xs) ys := by
  induction xs generalizing offset with
  | nil => rfl
  | cons x xs ih =>
    cases x with
    | text s =>
      simp only [List.cons_append, spansOf, ih, totalLength_cons, Node.length_text, Nat.add_assoc]
    | token t =>
      simp only [List.cons_append, spansOf, ih, totalLength_cons, Node.length_token, Nat.add_assoc]
      split <;> rfl

@[simp] theorem spansOf_raw {cs : List Char} : spansOf kind offset (raw cs) = [] := by
  unfold raw
  split <;> rfl

/-- A token of another kind may take the place of raw text. -/
theorem spansOf_split {s : String} {before after : List Char} (ht : t.kind ≠ kind)
    (hs : s.utf8ByteSize = byteLength before + (t.length + byteLength after)) :
    spansOf kind offset (raw before ++ .token t :: (raw after ++ nodes)) =
      spansOf kind offset (.text s :: nodes) := by
  have hstop : offset + byteLength before + t.length + byteLength after =
      offset + s.utf8ByteSize := by
    omega
  rw [spansOf_append, spansOf_raw, List.nil_append, totalLength_raw, spansOf_token_of_ne ht,
    spansOf_append, spansOf_raw, List.nil_append, totalLength_raw, hstop, spansOf_text]

/-- Each span is the place of a token. -/
theorem exists_of_mem_spansOf {start stop : Nat} (h : (start, stop) ∈ spansOf kind offset nodes) :
    ∃ k t, TokenAt nodes k t ∧ start = offset + k ∧ stop = start + t.length := by
  induction nodes generalizing offset with
  | nil => simp [spansOf] at h
  | cons node nodes ih =>
    have hlater : ∀ from', from' = offset + node.length →
        (start, stop) ∈ spansOf kind from' nodes → ∃ k t, TokenAt (node :: nodes) k t ∧
          start = offset + k ∧ stop = start + t.length := by
      rintro _ rfl hmem
      obtain ⟨k, t, ht, hstart, hstop⟩ := ih hmem
      exact ⟨_, t, tokenAt_cons.2 (.inr ⟨k, rfl, ht⟩), by omega, hstop⟩
    cases node with
    | text s => exact hlater _ rfl h
    | token t =>
      by_cases ht : t.kind = kind
      · rw [spansOf_token ht] at h
        rcases List.mem_cons.1 h with h | h
        · cases h
          exact ⟨0, t, tokenAt_cons.2 (.inl ⟨rfl, rfl⟩), rfl, rfl⟩
        · exact hlater _ rfl h
      · rw [spansOf_token_of_ne ht] at h
        exact hlater _ rfl h

/-- Tokens that overlap are one and the same. -/
theorem TokenAt.unique (h : TokenAt nodes offset t) (h' : TokenAt nodes offset' t')
    (hlt : offset < offset' + t'.length) (hlt' : offset' < offset + t.length) :
    offset = offset' ∧ t = t' := by
  induction nodes generalizing offset offset' with
  | nil => exact absurd h not_tokenAt_nil
  | cons node nodes ih =>
    rcases tokenAt_cons.1 h with ⟨rfl, rfl⟩ | ⟨k, rfl, hk⟩
    · rcases tokenAt_cons.1 h' with ⟨heq, rfl⟩ | ⟨k', rfl, hk'⟩
      · cases heq
        exact ⟨rfl, rfl⟩
      · rw [Node.length_token] at hlt'
        omega
    · rcases tokenAt_cons.1 h' with ⟨rfl, rfl⟩ | ⟨k', rfl, hk'⟩
      · rw [Node.length_token] at hlt
        omega
      · obtain ⟨rfl, rfl⟩ := ih hk hk' (by omega) (by omega)
        exact ⟨rfl, rfl⟩

/-- Where a token covers more, no token has a span that overlaps with it. -/
theorem Covered.not_mem_spansOf {start stop lo hi : Nat} (h : Covered lo hi nodes)
    (hlo : start ≤ lo) (hstop : lo < stop) (hhi : stop < hi) :
    (start, stop) ∉ spansOf kind 0 nodes := by
  intro hmem
  obtain ⟨k, t, ht, rfl, rfl⟩ := exists_of_mem_spansOf hmem
  obtain ⟨offset, u, hu, hle, hge⟩ := h
  rw [Nat.zero_add] at hlo hstop hhi
  obtain ⟨rfl, rfl⟩ := ht.unique hu (by omega) (by omega)
  omega

end

namespace Level

variable {l : Level} {text : List Char} {c : Candidate} {left done : List Node} {f g : Frame}
  {again : Frame → Except Fault Frame} {n i j : Nat} {kind : String}

/-- A pattern that looks at fragments moves no token and makes none but its own. -/
theorem spansOf_scan (hc : c ∈ l.rules) (hmode : c.pattern.mode = .fragment)
    (hkind : c.kind ≠ kind) (hat : l.At text left f) (h : l.scan c again n done f = .ok g) :
    spansOf kind 0 g.nodes = spansOf kind 0 (done.reverse ++ f.nodes) := by
  induction n generalizing left done f with
  | zero =>
    cases h
    rfl
  | succ n ih =>
    have hstep := hat.stepped c
    rw [scan_succ] at h
    generalize l.step c f = r at hstep h
    cases hstep with
    | finish =>
      cases h
      rfl
    | search => simp at h
    | inner => simp at h
    | pass hnodes _ hg =>
      rw [ih hg h, hnodes]
      simp
    | @make hit gone token hfits htoken =>
      obtain ⟨s, rfl⟩ := hfits.of_fragment hmode
      obtain ⟨content, rfl, -⟩ := exists_of_token htoken
      have hone : ¬ 1 < hit.covered := by simp [hfits.covered_eq]
      have hlength : s.utf8ByteSize =
          byteLength hit.before + (byteLength hit.matched + byteLength hit.after) := by
        simpa using hfits.gone_length
      simp only [if_neg hone] at h
      rw [ih (hat.behind hc hfits htoken) h, hfits.nodes_eq]
      simp only [Frame.behind, List.reverse_cons, List.reverse_append, List.reverse_reverse,
        List.append_assoc, List.singleton_append]
      rw [spansOf_append, spansOf_append hit.passed, spansOf_append done.reverse,
        spansOf_append hit.passed, spansOf_split (by exact hkind) hlength]

/-- What the patterns from `i` on keep, each from the start of the frame on. -/
theorem passes_induction {motive : Frame → Prop} (hat : l.At text left f)
    (hstep : ∀ k c f g log, i ≤ k → l.rules[k]? = some c → l.At text left f →
      l.scan c (l.passes k) (l.bytes + 2) [] f = .ok g →
      Linked l text (left ++ f.nodes) log (left ++ g.nodes) → motive f →
      motive { g with here := f.here })
    {mid : Frame} (hmid : l.passes i f = .ok mid) (hmotive : motive mid) (hle : i ≤ j)
    (h : l.passes j f = .ok g) : motive g := by
  induction j, hle using Nat.le_induction generalizing g with
  | base =>
    rw [hmid] at h
    cases h
    exact hmotive
  | succ j hle ih =>
    have htraced := passes_traced j hat
    rw [passes_succ] at h
    generalize hpasses : l.passes j f = r at h htraced
    cases r with
    | error e => simp at h
    | ok last =>
      obtain ⟨hatLast, -⟩ := htraced.at hat
      rw [← here_of_passes hpasses] at hatLast
      have hlast := ih hpasses
      dsimp only at h
      cases hrule : l.rules[j]? with
      | none =>
        rw [hrule] at h
        cases h
        exact hlast
      | some c =>
        rw [hrule] at h
        dsimp only at h
        split at h
        · simp at h
        · rename_i last' hscan
          cases h
          have htracedScan := scan_traced (Array.mem_of_getElem? hrule)
            (fun left f hat => passes_traced j hat) (fun f g t more => head_of_passes)
            (l.bytes + 2) [] hatLast
          rw [hscan] at htracedScan
          obtain ⟨-, hlinked⟩ := htracedScan.at hatLast
          exact hstep j c last last' _ hle hrule hatLast hscan hlinked hlast

theorem exists_passes_of_le (hle : i ≤ j) (h : l.passes j f = .ok g) :
    ∃ mid, l.passes i f = .ok mid := by
  induction j, hle using Nat.le_induction generalizing g with
  | base => exact ⟨g, h⟩
  | succ j hle ih =>
    rw [passes_succ] at h
    generalize hpasses : l.passes j f = r at h
    cases r with
    | error e => simp at h
    | ok last => exact ih hpasses

/-- The patterns from `i` on leave the tokens of a kind alone if they look at fragments and make
    tokens of other kinds. -/
theorem spansOf_passes {mid : Frame} (hat : l.At text left f)
    (hrest : ∀ k c, i ≤ k → l.rules[k]? = some c → c.pattern.mode = .fragment ∧ c.kind ≠ kind)
    (hmid : l.passes i f = .ok mid) (hle : i ≤ j) (h : l.passes j f = .ok g) :
    spansOf kind 0 g.nodes = spansOf kind 0 mid.nodes := by
  refine passes_induction (motive := fun f => spansOf kind 0 f.nodes = spansOf kind 0 mid.nodes)
    hat ?_ hmid rfl hle h
  intro k c f g log hk hc hat hscan _ hf
  obtain ⟨hmode, hkind⟩ := hrest k c hk hc
  exact (spansOf_scan (Array.mem_of_getElem? hc) hmode hkind hat hscan).trans hf

/-- What a token covers stays covered by a token. -/
theorem covered_passes {mid : Frame} {start stop : Nat} (hat : l.At text [] f)
    (hmid : l.passes i f = .ok mid) (hcovered : Covered start stop mid.nodes) (hle : i ≤ j)
    (h : l.passes j f = .ok g) : Covered start stop g.nodes := by
  refine passes_induction (motive := fun f => Covered start stop f.nodes) hat ?_ hmid hcovered hle h
  rintro k c f g log - - - - hlinked ⟨offset, t, ht, hstart, hstop⟩
  have hpast : Kept [] f.nodes offset t := .inl ht
  rcases hlinked.kept hpast with hkept | ⟨d, -, -, u, -, hu, hle, hge⟩
  · exact ⟨offset, t, hkept, hstart, hstop⟩
  · exact ⟨d.start, u, hu, by omega, by omega⟩

end Level

end Tokenizer

end SyntaxHue
