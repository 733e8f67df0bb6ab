import SyntaxHue.Proofs.Json.Found
import SyntaxHue.Proofs.Tokenizer.Split

/-!
# Scanning a JSON text

While the patterns for keys, strings and comments are applied, every token of the level is a
literal of the text, and the raw text between two tokens is that of the lexemes between them. The
nodes of the level are therefore known from the literals that are tokens. A scan goes from one
literal to a later one, and makes tokens of all those that its pattern is meant for.
-/

namespace SyntaxHue

namespace JsonText

open Cursor (Over)
open Tokenizer

/-! ## Nodes of lexemes -/

/-- The text in front of the first token. -/
def gapOf (made : Lexeme → Option Token) : List Lexeme → List Char
  | [] => []
  | x :: ls => if (made x).isSome then [] else x.chars ++ gapOf made ls

/-- The nodes from the first token on. -/
def restOf (made : Lexeme → Option Token) : List Lexeme → List Node
  | [] => []
  | x :: ls =>
    match made x with
    | some t => .token t :: (raw (gapOf made ls) ++ restOf made ls)
    | none => restOf made ls

/-- The nodes that stand for some lexemes, where `made` tells which of them are tokens. -/
def nodesOf (made : Lexeme → Option Token) (ls : List Lexeme) : List Node :=
  raw (gapOf made ls) ++ restOf made ls

section

variable {made made' : Lexeme → Option Token} {ls l₁ l₂ : List Lexeme} {x : Lexeme} {t : Token}

theorem raw_nil : raw [] = [] := rfl

theorem raw_of_ne_nil {cs : List Char} (h : cs ≠ []) : raw cs = [.text (String.ofList cs)] := by
  rw [raw, if_neg (by simpa using h)]

theorem length_raw_le (cs : List Char) : (raw cs).length ≤ byteLength cs := by
  rw [← totalLength_raw]
  exact (solid_raw cs).length_le

theorem gapOf_text (hx : made x = none) : gapOf made (x :: ls) = x.chars ++ gapOf made ls := by
  simp [gapOf, hx]

theorem gapOf_token (hx : made x = some t) : gapOf made (x :: ls) = [] := by
  simp [gapOf, hx]

theorem exists_gapOf (made : Lexeme → Option Token) (ls : List Lexeme) :
    ∃ more, chars ls = gapOf made ls ++ more := by
  induction ls with
  | nil => exact ⟨[], rfl⟩
  | cons x ls ih =>
    cases hx : made x with
    | some t => exact ⟨_, by rw [gapOf_token hx]; rfl⟩
    | none =>
      obtain ⟨more, hmore⟩ := ih
      exact ⟨more, by rw [chars_cons, gapOf_text hx, hmore, List.append_assoc]⟩

theorem restOf_text (hx : made x = none) : restOf made (x :: ls) = restOf made ls := by
  simp [restOf, hx]

theorem restOf_token (hx : made x = some t) :
    restOf made (x :: ls) = .token t :: nodesOf made ls := by
  simp [restOf, hx, nodesOf]

theorem nodesOf_token (hx : made x = some t) :
    nodesOf made (x :: ls) = .token t :: nodesOf made ls := by
  rw [nodesOf, gapOf_token hx, restOf_token hx, raw_nil, List.nil_append]

/-- The nodes from the first token on begin with a token, if there are any. -/
theorem restOf_cases (made : Lexeme → Option Token) (ls : List Lexeme) :
    restOf made ls = [] ∨ ∃ t nodes, restOf made ls = .token t :: nodes := by
  induction ls with
  | nil => exact .inl rfl
  | cons x ls ih =>
    cases hx : made x with
    | none => rwa [restOf_text hx]
    | some t => exact .inr ⟨t, _, restOf_token hx⟩

theorem gapOf_congr (h : ∀ x ∈ ls, made x = made' x) : gapOf made ls = gapOf made' ls := by
  induction ls with
  | nil => rfl
  | cons x ls ih =>
    obtain ⟨hx, hls⟩ := List.forall_mem_cons.1 h
    simp only [gapOf, hx, ih hls]

theorem restOf_congr (h : ∀ x ∈ ls, made x = made' x) : restOf made ls = restOf made' ls := by
  induction ls with
  | nil => rfl
  | cons x ls ih =>
    obtain ⟨hx, hls⟩ := List.forall_mem_cons.1 h
    simp only [restOf, hx, ih hls, gapOf_congr hls]

theorem nodesOf_congr (h : ∀ x ∈ ls, made x = made' x) : nodesOf made ls = nodesOf made' ls := by
  rw [nodesOf, nodesOf, gapOf_congr h, restOf_congr h]

/-- The nodes in front of some lexemes: nodes that are complete, and text that goes on. -/
structure Front (made : Lexeme → Option Token) (ls : List Lexeme) (nodes : List Node)
    (u v : List Char) : Prop where
  chars_eq : chars ls = u ++ v
  length_eq : totalLength nodes = byteLength u
  append : ∀ made', (∀ x ∈ ls, made' x = made x) → ∀ ms,
    nodesOf made' (ls ++ ms) = nodes ++ (raw (v ++ gapOf made' ms) ++ restOf made' ms)

theorem Front.append_token {nodes : List Node} {u v : List Char} (h : Front made l₁ nodes u v)
    (hsame : ∀ y ∈ l₁, made' y = made y) (hx : made' x = some t) :
    nodesOf made' (l₁ ++ x :: l₂) = nodes ++ (raw v ++ [.token t]) ++ nodesOf made' l₂ := by
  rw [h.append made' hsame, gapOf_token hx, restOf_token hx]
  simp

/-- Only literals are tokens, and a token is as long as its literal. -/
structure Literals (made : Lexeme → Option Token) : Prop where
  body? : ∀ x t, made x = some t → x.body?.isSome
  length_eq : ∀ x t, made x = some t → t.length = byteLength x.chars

theorem exists_front (hmade : Literals made) (ls : List Lexeme) :
    ∃ nodes u v, Front made ls nodes u v := by
  induction ls using List.reverseRecOn with
  | nil => exact ⟨[], [], [], rfl, rfl, fun _ _ _ => rfl⟩
  | append_singleton ls x ih =>
    obtain ⟨nodes, u, v, hchars, hlength, happend⟩ := ih
    have hsub : ∀ made' : Lexeme → Option Token, (∀ y ∈ ls ++ [x], made' y = made y) →
        (∀ y ∈ ls, made' y = made y) ∧ made' x = made x := by
      intro made' h
      exact ⟨fun y hy => h y (by simp [hy]), h x (by simp)⟩
    cases hx : made x with
    | none =>
      refine ⟨nodes, u, v ++ x.chars, by simp [hchars], hlength, ?_⟩
      intro made' h ms
      obtain ⟨hls, hx'⟩ := hsub made' h
      rw [hx] at hx'
      rw [List.append_assoc, List.singleton_append, happend made' hls, gapOf_text hx',
        restOf_text hx', List.append_assoc]
    | some t =>
      refine ⟨nodes ++ (raw v ++ [.token t]), u ++ (v ++ x.chars), [], by simp [hchars], ?_, ?_⟩
      · simp [hlength, hmade.length_eq x t hx]
      · intro made' h ms
        obtain ⟨hls, hx'⟩ := hsub made' h
        rw [hx] at hx'
        rw [List.append_assoc, List.singleton_append, happend made' hls, gapOf_token hx',
          restOf_token hx']
        simp [nodesOf]

theorem totalLength_nodesOf (hmade : Literals made) (ls : List Lexeme) :
    totalLength (nodesOf made ls) = byteLength (chars ls) := by
  induction ls with
  | nil => rfl
  | cons x ls ih =>
    cases hx : made x with
    | some t => simp [nodesOf_token hx, ih, hmade.length_eq x t hx]
    | none =>
      simp only [nodesOf, totalLength_append, totalLength_raw] at ih
      simp only [nodesOf, gapOf_text hx, restOf_text hx, totalLength_append, totalLength_raw,
        byteLength_append, chars_cons]
      omega

theorem byteLength_pos_of_body? (hx : x.body?.isSome) : 0 < byteLength x.chars := by
  obtain ⟨b, hb⟩ := Option.isSome_iff_exists.1 hx
  have hpos := Char.utf8Size_pos '"'
  rw [Lexeme.chars_of_body? hb, List.cons_append, byteLength_cons]
  omega

theorem solid_nodesOf (hmade : Literals made) (ls : List Lexeme) : Solid (nodesOf made ls) := by
  rw [nodesOf, solid_append]
  refine ⟨solid_raw _, ?_⟩
  induction ls with
  | nil => exact solid_nil
  | cons x ls ih =>
    cases hx : made x with
    | none => rwa [restOf_text hx]
    | some t =>
      rw [restOf_token hx, solid_cons, nodesOf, solid_append, Node.length_token,
        hmade.length_eq x t hx]
      exact ⟨byteLength_pos_of_body? (hmade.body? x t hx), solid_raw _, ih⟩

theorem length_nodesOf_le (hmade : Literals made) (ls : List Lexeme) :
    (nodesOf made ls).length ≤ byteLength (chars ls) := by
  rw [← totalLength_nodesOf hmade]
  exact (solid_nodesOf hmade ls).length_le

/-- There are no more nodes in front of a place than bytes. -/
theorem Front.length_le {nodes : List Node} {u v : List Char} (h : Front made ls nodes u v)
    (hmade : Literals made) : nodes.length + (raw v).length ≤ byteLength (chars ls) := by
  have hsolid := solid_nodesOf hmade ls
  rw [← List.append_nil ls, h.append made (fun _ _ => rfl) [], solid_append] at hsolid
  have hnodes := hsolid.1.length_le
  have hraw := length_raw_le v
  rw [h.length_eq] at hnodes
  rw [h.chars_eq, byteLength_append]
  omega

end

/-! ## Looking at nodes -/

section

variable {p : Pattern} {m : PatternMatch} {here there : Cursor} {passed rest : List Node}
  {u : List Char} {goal offset : Nat}

theorem Over.forward_eq (h : Over u here there) : here.forward (byteLength u) = there := by
  obtain ⟨htext, -, hoffset⟩ := Cursor.forward_over h.after_eq
  exact Cursor.eq_of_offset (htext.trans h.text_eq.symm) (hoffset.trans h.offset_eq.symm)

theorem Over.chars_eq (h : Over u here there) : Span.chars ⟨here, there⟩ = u := by
  have hlen : there.offset - here.offset = byteLength u := by
    rw [h.offset_eq, Nat.add_sub_cancel_left]
  rw [Span.chars, hlen, h.after_eq, Span.takeBytes_append]

theorem passUpTo_append {node : Node} (hle : offset + totalLength passed ≤ goal)
    (hlt : goal < offset + totalLength passed + node.length) :
    passUpTo goal (passed ++ node :: rest) offset =
      (passed, node :: rest, offset + totalLength passed) := by
  induction passed generalizing offset with
  | nil =>
    rw [totalLength_nil, Nat.add_zero] at hlt
    rw [List.nil_append, passUpTo, if_neg (by omega), totalLength_nil, Nat.add_zero]
  | cons first passed ih =>
    rw [totalLength_cons] at hle hlt
    rw [List.cons_append, passUpTo, if_pos (by omega), ih (by omega) (by omega), totalLength_cons,
      Nat.add_assoc]

theorem coverUpTo_text {s : String} (hlt : offset < goal) (hle : goal ≤ offset + s.utf8ByteSize)
    (hrest : rest = [] ∨ ∃ t nodes, rest = .token t :: nodes) :
    coverUpTo goal (.text s :: rest) offset = some (1, rest, offset + s.utf8ByteSize) := by
  have hothers : coverUpTo goal rest (offset + s.utf8ByteSize) =
      some (0, rest, offset + s.utf8ByteSize) := by
    rcases hrest with rfl | ⟨t, nodes, rfl⟩
    · rfl
    · have hnot : ¬ offset + s.utf8ByteSize < goal := by omega
      simp [coverUpTo, Node.isToken, hnot]
  simp [coverUpTo, Node.isToken, hlt, hothers]

/-- A match in a raw text in front of which there are some nodes. -/
theorem lookInInput_hit {s : String} (hfind : p.find here = .ok (some m))
    (hover : Over u here there) (hpassed : totalLength passed = byteLength u)
    (hstart : there.offset ≤ m.span.start.offset)
    (hlt : m.span.start.offset < m.span.stop.offset)
    (hstop : m.span.stop.offset ≤ there.offset + s.utf8ByteSize)
    (hafter : m.span.start.after ≠ [])
    (hrest : rest = [] ∨ ∃ t nodes, rest = .token t :: nodes) :
    lookInInput p (passed ++ .text s :: rest) here = .ok (.hit {
      passed := passed
      covered := 1
      rest := rest
      before := Span.chars ⟨there, m.span.start⟩
      matched := m.span.chars
      after := Span.takeBytes (there.offset + s.utf8ByteSize - m.span.stop.offset)
        m.span.stop.after
      start := m.span.start
      stop := m.span.stop
      reach := there.offset + s.utf8ByteSize }) := by
  have hoffset : here.offset + totalLength passed = there.offset := by
    rw [hpassed, hover.offset_eq]
  have hpass : passUpTo m.span.start.offset (passed ++ .text s :: rest) here.offset =
      (passed, .text s :: rest, there.offset) := by
    rw [← hoffset]
    exact passUpTo_append (by omega) (by rw [Node.length_text]; omega)
  have hcover := coverUpTo_text (by omega) hstop hrest
  have hforward : here.forward (there.offset - here.offset) = there := by
    rw [hover.offset_eq, Nat.add_sub_cancel_left, Over.forward_eq hover]
  have hnonempty : m.span.start.after.isEmpty = false := by simpa using hafter
  simp only [lookInInput, hfind, bind, Except.bind, hnonempty, hpass, hcover, hforward,
    Node.isToken, Nat.not_lt.2 hstart, Bool.false_eq_true, if_false, pure, Except.pure]

/-- A match that starts in a token is put aside. -/
theorem lookInInput_token {t : Token} (hfind : p.find here = .ok (some m))
    (hover : Over u here there) (hpassed : totalLength passed = byteLength u)
    (hstart : there.offset ≤ m.span.start.offset)
    (hlt : m.span.start.offset < there.offset + t.length) (hafter : m.span.start.after ≠ []) :
    lookInInput p (passed ++ .token t :: rest) here =
      .ok (.skip (passed ++ [.token t]) rest (there.forward t.length)) := by
  have hoffset : here.offset + totalLength passed = there.offset := by
    rw [hpassed, hover.offset_eq]
  have hpass : passUpTo m.span.start.offset (passed ++ .token t :: rest) here.offset =
      (passed, .token t :: rest, there.offset) := by
    rw [← hoffset]
    exact passUpTo_append (by omega) (by rw [Node.length_token]; omega)
  have hforward : here.forward (there.offset - here.offset) = there := by
    rw [hover.offset_eq, Nat.add_sub_cancel_left, Over.forward_eq hover]
  have hnonempty : m.span.start.after.isEmpty = false := by simpa using hafter
  simp only [lookInInput, hfind, bind, Except.bind, hnonempty, hpass, hforward,
    Node.isToken, Bool.false_eq_true, if_false, if_true, pure, Except.pure, Node.length_token]

end

/-! ## Scans -/

/-- The token that a pattern makes of a literal. -/
def tokenOf (c : Candidate) (x : Lexeme) : Token :=
  ⟨c.kind, .text (String.ofList x.chars), c.pattern.aliases, byteLength x.chars⟩

/-- The tokens there are when a pattern has made tokens of the literals that `target` selects. -/
def withTokens (c : Candidate) (target : Lexeme → Bool) (made : Lexeme → Option Token) :
    Lexeme → Option Token :=
  fun x => if target x then some (tokenOf c x) else made x

/-- A pattern for the whole input that may make tokens of the literals that `target` selects, as
    long as `made` tells what the tokens are. -/
structure Suits (c : Candidate) (target : Lexeme → Bool) (made : Lexeme → Option Token) :
    Prop where
  mode : c.pattern.mode = .input
  inside : c.pattern.inside = none
  literals : Literals made
  body? : ∀ x, target x = true → x.body?.isSome
  unmade : ∀ x, target x = true → made x = none

/-- The pattern finds those literals in the text of `all`. -/
structure Seeks (all : List Lexeme) (c : Candidate) (target : Lexeme → Bool)
    (made : Lexeme → Option Token) : Prop extends Suits c target made where
  finds : ∀ l ls here, all = l ++ ls → here.text = chars all → Between here ls →
    Finds target (fun x => (made x).isSome) here ls (c.pattern.find here)

/-- A scan has come to the frame `f`, with `k` nodes before it and the lexemes `ls` ahead. -/
structure Ahead (all : List Lexeme) (bytes : Nat) (made : Lexeme → Option Token) (k : Nat)
    (ls : List Lexeme) (f : Frame) : Prop where
  suffix : ∃ l, all = l ++ ls
  text_eq : f.here.text = chars all
  between : Between f.here ls
  nodes_eq : f.nodes = nodesOf made ls
  reach_eq : f.reach = none
  count_eq : f.count = k + (nodesOf made ls).length
  count_le : k + byteLength (chars ls) ≤ bytes

section

variable {all ls l₁ l₂ : List Lexeme} {c : Candidate} {target : Lexeme → Bool}
  {made : Lexeme → Option Token} {l : Level} {f : Frame} {k : Nat} {x : Lexeme} {t : Token}

theorem withTokens_of_target (hx : target x = true) :
    withTokens c target made x = some (tokenOf c x) := by
  simp [withTokens, hx]

theorem withTokens_of_not (hx : target x = false) : withTokens c target made x = made x := by
  simp [withTokens, hx]

theorem Literals.withTokens (h : Literals made) (hbody : ∀ x, target x = true → x.body?.isSome) :
    Literals (withTokens c target made) where
  body? := by
    intro x t hx
    unfold JsonText.withTokens at hx
    split at hx
    · rename_i htarget
      exact hbody x htarget
    · exact h.body? x t hx
  length_eq := by
    intro x t hx
    unfold JsonText.withTokens at hx
    split at hx
    · cases hx
      rfl
    · exact h.length_eq x t hx

/-- The number of nodes never stops a scan. -/
theorem Ahead.go (h : Ahead all l.bytes made k ls f) (hmade : Literals made) :
    (f.reach.any (· ≤ f.here.offset) || decide (l.bytes < f.count)) = false := by
  have hlength := length_nodesOf_le hmade ls
  have hcount := h.count_le
  rw [h.reach_eq, Option.any_none, Bool.false_or, h.count_eq]
  exact decide_eq_false (by omega)

/-- What comes behind a literal that is a token. -/
theorem Ahead.next {g : Frame} {n : Nat} (h : Ahead all l.bytes made k (l₁ ++ x :: l₂) f)
    (hx : x.body?.isSome) (htext : g.here.text = f.here.text) (hafter : g.here.after = chars l₂)
    (hnodes : g.nodes = nodesOf made l₂) (hreach : g.reach = none)
    (hcount : g.count = n + (nodesOf made l₂).length)
    (hn : n ≤ k + byteLength (chars l₁) + byteLength x.chars) :
    Ahead all l.bytes made n l₂ g where
  suffix := by
    obtain ⟨l, hl⟩ := h.suffix
    exact ⟨l ++ (l₁ ++ [x]), by simp [hl]⟩
  text_eq := htext.trans h.text_eq
  between := h.between.next hx hafter
  nodes_eq := hnodes
  reach_eq := hreach
  count_eq := hcount
  count_le := by
    have hle := h.count_le
    simp only [chars_append, chars_cons, byteLength_append] at hle
    omega

theorem step_token {more : List Node} (hgo : (f.reach.any (· ≤ f.here.offset) ||
      decide (l.bytes < f.count)) = false) (hnodes : f.nodes = .token t :: more) :
    l.step c f =
      .ok (.pass [.token t] { f with nodes := more, here := f.here.forward t.length }) := by
  rw [Level.step, hnodes]
  dsimp only
  rw [hgo, if_neg Bool.false_ne_true]

theorem step_text {s : String} {more : List Node} (hgo : (f.reach.any (· ≤ f.here.offset) ||
      decide (l.bytes < f.count)) = false) (hmode : c.pattern.mode = .input)
    (hnodes : f.nodes = .text s :: more) :
    l.step c f =
      match lookInInput c.pattern f.nodes f.here with
      | .error e => .error e
      | .ok .stop => .ok .finish
      | .ok (.skip passed rest here) => .ok (.pass passed { f with nodes := rest, here := here })
      | .ok (.hit h) =>
        match l.token c h.matched with
        | .error e => .error e
        | .ok token => .ok (.make h token) := by
  have hlook : look c.pattern s more f.here =
      lookInInput c.pattern (.text s :: more) f.here := by
    simp only [look, hmode]
  rw [Level.step, hnodes]
  dsimp only
  rewrite [hgo, if_neg Bool.false_ne_true, hlook]
  rfl

/-- What one step of a scan comes to. Unless it ends, it goes over some nodes, up to the lexemes
    `ls`. -/
structure Advance (all : List Lexeme) (l : Level) (c : Candidate)
    (again : Frame → Except Fault Frame) (target : Lexeme → Bool) (made : Lexeme → Option Token) (k : Nat) (ls ms : List Lexeme)
    (f g : Frame) (nodes : List Node) : Prop where
  ahead : Ahead all l.bytes made (k + nodes.length) ms g
  shorter : byteLength (chars ms) < byteLength (chars ls)
  nodes_eq : nodesOf (withTokens c target made) ls =
    nodes ++ nodesOf (withTokens c target made) ms
  scan_eq : ∀ n done, l.scan c again (n + 1) done f = l.scan c again n (nodes.reverse ++ done) g

variable {again : Frame → Except Fault Frame} {m : PatternMatch}

/-- A token at the place of the scan is passed. -/
theorem Ahead.advance_token (h : Ahead all l.bytes made k (x :: ls) f)
    (hsuits : Suits c target made) (hx : made x = some t) :
    ∃ g, Advance all l c again target made k (x :: ls) ls f g [.token t] := by
  have hbody := hsuits.literals.body? x t hx
  have hnodes := h.nodes_eq
  rw [nodesOf_token hx] at hnodes
  have hafter := h.between.after_eq
  rw [chars_cons] at hafter
  obtain ⟨there, hover, hrest⟩ := Over.exists_of_after hafter
  have hforward : f.here.forward t.length = there := by
    rw [hsuits.literals.length_eq x t hx, Over.forward_eq hover]
  have hpos := byteLength_pos_of_body? hbody
  have htarget : target x = false := by
    cases htarget : target x with
    | false => rfl
    | true => simp [hsuits.unmade x htarget] at hx
  refine ⟨{ f with nodes := nodesOf made ls, here := there }, ?_, ?_, ?_, ?_⟩
  · have hcount := h.count_eq
    rw [nodesOf_token hx, List.length_cons] at hcount
    have h' : Ahead all l.bytes made k ([] ++ x :: ls) f := h
    refine h'.next hbody hover.text_eq hrest rfl h.reach_eq ?_ ?_
    · simp only [List.length_singleton]
      omega
    · simp only [List.length_singleton, chars_nil, byteLength_nil]
      omega
  · rw [chars_cons, byteLength_append]
    omega
  · rw [nodesOf_token (by rw [withTokens_of_not htarget, hx])]
    rfl
  · intro n done
    rw [Level.scan_succ, step_token (h.go hsuits.literals) hnodes, hforward]

/-- A match at a literal makes a token of it. -/
theorem Ahead.advance_hit (h : Ahead all l.bytes made k (l₁ ++ x :: l₂) f)
    (hsuits : Suits c target made) (hfind : c.pattern.find f.here = .ok (some m))
    (hhead : ∃ s more, f.nodes = .text s :: more) (hbefore : ∀ y ∈ l₁, target y = false)
    (htarget : target x = true) (hstart : Over (chars l₁) f.here m.span.start)
    (hstop : Over x.chars m.span.start m.span.stop) :
    ∃ g nodes, Advance all l c again target made k (l₁ ++ x :: l₂) l₂ f g nodes := by
  have hbody := hsuits.body? x htarget
  have hx := hsuits.unmade x htarget
  have hpos := byteLength_pos_of_body? hbody
  obtain ⟨passed, u, v, hfront⟩ := exists_front hsuits.literals l₁
  obtain ⟨more, hmore⟩ := exists_gapOf made l₂
  have hne : v ++ (x.chars ++ gapOf made l₂) ≠ [] := by
    have hchars : x.chars ≠ [] := h.between.told.right.ne_nil
    simp [hchars]
  have hnodes : f.nodes =
      passed ++ .text (String.ofList (v ++ (x.chars ++ gapOf made l₂))) :: restOf made l₂ := by
    rw [h.nodes_eq, hfront.append made (fun _ _ => rfl), gapOf_text hx, restOf_text hx,
      raw_of_ne_nil hne, List.singleton_append]
  have hsize : (String.ofList (v ++ (x.chars ++ gapOf made l₂))).utf8ByteSize =
      byteLength v + (byteLength x.chars + byteLength (gapOf made l₂)) := by
    rw [utf8ByteSize_ofList, byteLength_append, byteLength_append]
  rw [hfront.chars_eq] at hstart
  obtain ⟨there, hu, hv⟩ := hstart.exists_split
  have hv' := hv.offset_eq
  have hx' := hstop.offset_eq
  have hafter : m.span.start.after ≠ [] := by
    rw [hstop.after_eq]
    simp [h.between.told.right.ne_nil]
  have hlook := lookInInput_hit hfind hu hfront.length_eq (by omega) (by omega)
    (by rw [hsize]; omega) hafter (restOf_cases made l₂)
  have hrest : m.span.stop.after = chars l₂ := by
    have hall := h.between.after_eq
    rw [chars_append, chars_cons, hfront.chars_eq, hstart.after_eq, hstop.after_eq] at hall
    exact List.append_cancel_left (List.append_cancel_left hall)
  have hgap : there.offset + (byteLength v + (byteLength x.chars + byteLength (gapOf made l₂))) -
      m.span.stop.offset = byteLength (gapOf made l₂) := by
    omega
  have hchars : m.span.chars = x.chars := Over.chars_eq hstop
  rw [hsize, Over.chars_eq hv, hgap, hrest, hmore, Span.takeBytes_append, hchars] at hlook
  generalize hhit : Hit.mk _ _ _ _ _ _ _ _ _ = hit at hlook
  have hstep : l.step c f = .ok (.make hit (.token (tokenOf c x))) := by
    obtain ⟨s, others, hs⟩ := hhead
    rw [step_text (h.go hsuits.literals) hsuits.mode hs, hnodes, hlook]
    subst hhit
    simp only [Level.token_eq, hsuits.inside, tokenOf]
  refine ⟨f.behind hit, passed ++ (raw v ++ [.token (tokenOf c x)]), ?_, ?_, ?_, ?_⟩
  · have hcount := h.count_eq
    have hle := hfront.length_le hsuits.literals
    rw [← h.nodes_eq, hnodes] at hcount
    simp only [List.length_append, List.length_cons] at hcount
    subst hhit
    refine h.next hbody (hstop.text_eq.trans hstart.text_eq) hrest rfl ?_ ?_ ?_
    · simp [Frame.behind, h.reach_eq, raise]
    · simp only [Frame.behind, Frame.countAfter, nodesOf, List.length_append, List.length_singleton]
      omega
    · simp only [List.length_append, List.length_singleton]
      omega
  · rw [chars_append, chars_cons, byteLength_append, byteLength_append]
    omega
  · exact hfront.append_token (fun y hy => withTokens_of_not (hbefore y hy))
      (withTokens_of_target htarget)
  · intro n done
    rw [Level.scan_succ, hstep]
    subst hhit
    simp

/-- A match that starts in a token is put aside, and the scan goes on behind the token. -/
theorem Ahead.advance_pass (h : Ahead all l.bytes made k (l₁ ++ x :: l₂) f)
    (hsuits : Suits c target made) (hfind : c.pattern.find f.here = .ok (some m))
    (hhead : ∃ s more, f.nodes = .text s :: more) (hbefore : ∀ y ∈ l₁, target y = false)
    (htarget : target x = false) (hx : made x = some t) {w w' : List Char}
    (hchars : x.chars = w ++ w') (hw' : w' ≠ [])
    (hstart : Over (chars l₁ ++ w) f.here m.span.start) :
    ∃ g nodes, Advance all l c again target made k (l₁ ++ x :: l₂) l₂ f g nodes := by
  have hbody := hsuits.literals.body? x t hx
  have hlength := hsuits.literals.length_eq x t hx
  have hpos := byteLength_pos_of_body? hbody
  obtain ⟨passed, u, v, hfront⟩ := exists_front hsuits.literals l₁
  have hnodes : f.nodes = (passed ++ raw v) ++ .token t :: nodesOf made l₂ := by
    rw [h.nodes_eq, hfront.append_token (fun _ _ => rfl) hx]
    simp
  have hpassed : totalLength (passed ++ raw v) = byteLength (chars l₁) := by
    rw [totalLength_append, totalLength_raw, hfront.length_eq, hfront.chars_eq, byteLength_append]
  obtain ⟨there, hthere, hw⟩ := hstart.exists_split
  obtain ⟨behind, hbehind, hrest⟩ : ∃ d, Over x.chars there d ∧ d.after = chars l₂ := by
    have hall := h.between.after_eq
    rw [chars_append, chars_cons, hthere.after_eq] at hall
    exact Over.exists_of_after (List.append_cancel_left hall)
  have hafter : m.span.start.after ≠ [] := by
    have hall := hw.after_eq
    rw [hbehind.after_eq, hchars, List.append_assoc] at hall
    rw [← List.append_cancel_left hall]
    simp [hw']
  have hlt : m.span.start.offset < there.offset + t.length := by
    have hpos' : byteLength w' ≠ 0 := fun hzero => hw' (byteLength_eq_zero.1 hzero)
    rw [hlength, hchars, hw.offset_eq, byteLength_append]
    omega
  have hforward : there.forward t.length = behind := by
    rw [hlength, Over.forward_eq hbehind]
  have hlook : lookInInput c.pattern f.nodes f.here =
      .ok (.skip (passed ++ raw v ++ [.token t]) (nodesOf made l₂) behind) := by
    rw [hnodes, ← hforward]
    exact lookInInput_token hfind hthere hpassed (by rw [hw.offset_eq]; omega) hlt hafter
  have hstep : l.step c f = .ok (.pass (passed ++ raw v ++ [.token t])
      { f with nodes := nodesOf made l₂, here := behind }) := by
    obtain ⟨s, others, hs⟩ := hhead
    rw [step_text (h.go hsuits.literals) hsuits.mode hs, hlook]
  refine ⟨{ f with nodes := nodesOf made l₂, here := behind }, passed ++ raw v ++ [.token t],
    ?_, ?_, ?_, ?_⟩
  · have hcount := h.count_eq
    have hle := hfront.length_le hsuits.literals
    rw [← h.nodes_eq, hnodes] at hcount
    simp only [List.length_append, List.length_cons] at hcount
    refine h.next hbody (hbehind.text_eq.trans hthere.text_eq) hrest rfl h.reach_eq ?_ ?_
    · simp only [List.length_append, List.length_singleton]
      omega
    · simp only [List.length_append, List.length_singleton]
      omega
  · rw [chars_append, chars_cons, byteLength_append, byteLength_append]
    omega
  · have hsame : ∀ y ∈ l₁, withTokens c target made y = made y :=
      fun y hy => withTokens_of_not (hbefore y hy)
    rw [List.append_assoc passed]
    exact hfront.append_token hsame (by rw [withTokens_of_not htarget, hx])
  · intro n done
    rw [Level.scan_succ, hstep]

/-- A step of a scan ends it, where nothing is left to look for, or goes on to later lexemes. -/
theorem Ahead.step_cases (again : Frame → Except Fault Frame) (h : Ahead all l.bytes made k ls f)
    (hseeks : Seeks all c target made) :
    (l.step c f = .ok .finish ∧ ∀ x ∈ ls, target x = false) ∨
      ∃ ms g nodes, Advance all l c again target made k ls ms f g nodes := by
  have hgo := h.go hseeks.literals
  cases ls with
  | nil =>
    have hnodes : f.nodes = [] := h.nodes_eq
    left
    rw [Level.step, hnodes]
    exact ⟨rfl, List.forall_mem_nil _⟩
  | cons x ls =>
    cases hx : made x with
    | some t =>
      obtain ⟨g, hadvance⟩ := h.advance_token hseeks.toSuits hx
      exact .inr ⟨ls, g, _, hadvance⟩
    | none =>
      have hne : x.chars ++ gapOf made ls ≠ [] := by
        simp [h.between.told.ne_nil]
      have hhead : ∃ s more, f.nodes = .text s :: more := by
        rw [h.nodes_eq, nodesOf, gapOf_text hx, raw_of_ne_nil hne]
        exact ⟨_, _, rfl⟩
      obtain ⟨l', hall⟩ := h.suffix
      have hfinds := hseeks.finds l' (x :: ls) f.here hall h.text_eq h.between
      generalize hfind : c.pattern.find f.here = r at hfinds
      cases hfinds with
      | none hnone =>
        left
        obtain ⟨s, more, hs⟩ := hhead
        rw [step_text hgo hseeks.mode hs]
        simp only [lookInInput, hfind, bind, Except.bind, pure, Except.pure]
        exact ⟨trivial, hnone⟩
      | hit hls hbefore htarget hstart hstop =>
        rw [hls] at h
        obtain ⟨g, nodes, hadvance⟩ :=
          h.advance_hit hseeks.toSuits hfind hhead hbefore htarget hstart hstop
        rw [hls]
        exact .inr ⟨_, g, nodes, hadvance⟩
      | pass hls hbefore htarget htaken hchars hw' hstart =>
        obtain ⟨t, ht⟩ := Option.isSome_iff_exists.1 htaken
        rw [hls] at h
        obtain ⟨g, nodes, hadvance⟩ :=
          h.advance_pass hseeks.toSuits hfind hhead hbefore htarget ht hchars hw' hstart
        rw [hls]
        exact .inr ⟨_, g, nodes, hadvance⟩

/-- A scan makes tokens of the literals that its pattern is meant for, and of nothing else. -/
theorem Ahead.scan {n : Nat} {done : List Node} (h : Ahead all l.bytes made k ls f)
    (hseeks : Seeks all c target made) (hn : byteLength (chars ls) < n) :
    ∃ g, l.scan c again n done f = .ok g ∧
      g.nodes = done.reverse ++ nodesOf (withTokens c target made) ls ∧ g.reach = none ∧
      g.count = k + (nodesOf (withTokens c target made) ls).length := by
  induction n generalizing k ls done f with
  | zero => omega
  | succ n ih =>
    rcases h.step_cases again hseeks with ⟨hstep, hnone⟩ | ⟨ms, g, nodes, hadvance⟩
    · have hsame : nodesOf (withTokens c target made) ls = nodesOf made ls :=
        nodesOf_congr fun x hx => withTokens_of_not (hnone x hx)
      refine ⟨{ f with nodes := done.reverse ++ f.nodes }, ?_, ?_, h.reach_eq, ?_⟩
      · rw [Level.scan_succ, hstep]
      · rw [hsame, ← h.nodes_eq]
      · rw [hsame]
        exact h.count_eq
    · have hshorter := hadvance.shorter
      have hrest : ∃ g', l.scan c again n (nodes.reverse ++ done) g = .ok g' ∧
          g'.nodes = (nodes.reverse ++ done).reverse ++ nodesOf (withTokens c target made) ms ∧
          g'.reach = none ∧
          g'.count = k + nodes.length + (nodesOf (withTokens c target made) ms).length :=
        ih hadvance.ahead (by omega)
      obtain ⟨g', hscan, hnodes, hreach, hcount⟩ := hrest
      refine ⟨g', by rw [hadvance.scan_eq, hscan], ?_, hreach, ?_⟩
      · rw [hnodes, hadvance.nodes_eq]
        simp
      · rw [hcount, hadvance.nodes_eq, List.length_append, Nat.add_assoc]

end

end JsonText

end SyntaxHue
