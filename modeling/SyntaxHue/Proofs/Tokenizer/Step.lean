import SyntaxHue.Proofs.Tokenizer.Look

/-!
# One step of a scan

A scan looks at the first node that is left. It ends, passes some nodes, or replaces nodes by a
token. `scan_succ` says that a scan is such steps one after the other, and `At` says what holds
between them: the nodes before the place of the scan and those behind it stand for the text of
the level, and each token was made by a pattern that is found where the token is.
-/

namespace SyntaxHue

namespace Tokenizer

namespace Frame

/-- The number of nodes in the level after a hit. -/
def countAfter (f : Frame) (h : Hit) : Nat :=
  f.count + (raw h.before).length + 1 + (raw h.after).length - h.covered

/-- The part that is scanned again after a hit: from its token on, up to its reach. -/
def again (f : Frame) (h : Hit) (token : Node) : Frame :=
  ⟨token :: (raw h.after ++ h.rest), h.start, f.countAfter h, some h.reach⟩

/-- The part behind the token of a hit. -/
def behind (f : Frame) (h : Hit) : Frame :=
  ⟨raw h.after ++ h.rest, h.stop, f.countAfter h, raise h.reach f.reach⟩

/-- The part behind the token of a hit, as a scan from the token on has left it. -/
def resume (f : Frame) (h : Hit) (sub : Frame) : Frame :=
  ⟨sub.nodes.drop 1, h.stop, sub.count, raise (sub.reach.getD 0) (raise h.reach f.reach)⟩

end Frame

/-- What a scan does with the nodes that are left. -/
inductive Step where
  | finish
  /-- Nothing changes up to the nodes of `f`. -/
  | pass (passed : List Node) (f : Frame)
  | make (h : Hit) (token : Node)

namespace Level

/-- One step of a scan. -/
def step (l : Level) (c : Candidate) (f : Frame) : Except Fault Step :=
  match f.nodes with
  | [] => .ok .finish
  | node :: more =>
    if f.reach.any (· ≤ f.here.offset) || l.bytes < f.count then .ok .finish
    else
      match node with
      | .token t =>
        .ok (.pass [.token t] { f with nodes := more, here := f.here.forward t.length })
      | .text s =>
        match look c.pattern s more f.here with
        | .error e => .error e
        | .ok .stop => .ok .finish
        | .ok (.skip passed rest here) => .ok (.pass passed { f with nodes := rest, here := here })
        | .ok (.hit h) =>
          match l.token c h.matched with
          | .error e => .error e
          | .ok token => .ok (.make h token)

variable {l : Level} {c : Candidate} {again : Frame → Except Fault Frame} {n : Nat}
  {done : List Node} {f : Frame}

/-- A scan is one step and the scan of what the step has left. -/
theorem scan_succ : l.scan c again (n + 1) done f =
    match l.step c f with
    | .error e => .error e
    | .ok .finish => .ok { f with nodes := done.reverse ++ f.nodes }
    | .ok (.pass passed g) => l.scan c again n (passed.reverse ++ done) g
    | .ok (.make h token) =>
      let done := token :: ((raw h.before).reverse ++ h.passed.reverse ++ done)
      if 1 < h.covered then
        match again (f.again h token) with
        | .error e => .error e
        | .ok sub => l.scan c again n done (f.resume h sub)
      else l.scan c again n done (f.behind h) := by
  rw [scan, step]
  split
  · rename_i hnodes
    simp [hnodes]
  · rename_i node more hnodes
    simp only [hnodes]
    split
    · rfl
    · cases node with
      | token t => rfl
      | text s =>
        simp only [bind, Except.bind]
        cases look c.pattern s more f.here with
        | error e => rfl
        | ok r =>
          cases r with
          | stop => rfl
          | skip passed rest here => rfl
          | hit h =>
            simp only
            cases l.token c h.matched with
            | error e => rfl
            | ok token =>
              simp only
              split
              · split <;> simp_all [Frame.again, Frame.resume, Frame.countAfter]
              · rfl

/-- The patterns up to one are those before it and a scan for it. -/
theorem passes_succ {i : Nat} : l.passes (i + 1) f =
    match l.passes i f with
    | .error e => .error e
    | .ok mid =>
      match l.rules[i]? with
      | none => .ok mid
      | some c =>
        match l.scan c (l.passes i) (l.bytes + 2) [] mid with
        | .error e => .error e
        | .ok g => .ok { g with here := mid.here } := by
  rw [passes]
  cases l.passes i f with
  | error e => rfl
  | ok mid =>
    simp only [bind, Except.bind]
    cases l.rules[i]? with
    | none => rfl
    | some c =>
      dsimp only
      split <;> simp_all [pure, Except.pure]

/-- The token `t` is what a pattern of the level makes of the text `matched`, and the pattern is
    found there at `offset`. -/
def Made (l : Level) (text : List Char) (offset : Nat) (matched : List Char) (t : Token) : Prop :=
  ∃ c ∈ l.rules, l.token c matched = .ok (.token t) ∧ c.pattern.FoundAt text offset matched

/-- A scan has come to the frame `f`, and `left` are the nodes of the level before it. -/
structure At (l : Level) (text : List Char) (left : List Node) (f : Frame) : Prop where
  text_eq : f.here.text = text
  offset_eq : f.here.offset = totalLength left
  covers : Covers (l.Made text) 0 text (left ++ f.nodes)
  count_eq : f.count = (left ++ f.nodes).length

variable {text : List Char} {left : List Node}

/-- What the nodes of a frame stand for. -/
theorem At.covers_nodes (h : l.At text left f) :
    Covers (l.Made text) f.here.offset f.here.after f.nodes := by
  obtain ⟨us, vs, htext, hus, hvs⟩ := h.covers.exists_append
  have hcut : us ++ vs = f.here.before.reverse ++ f.here.after := by
    rw [← htext, ← h.text_eq, Cursor.text]
  have hlen : byteLength us = f.here.offset := by
    rw [h.offset_eq, hus.totalLength_eq]
  obtain ⟨-, rfl⟩ := append_inj_of_byteLength hcut (by rw [hlen, f.here.offset_eq])
  rwa [Nat.zero_add, hlen] at hvs

theorem token_eq {matched : List Char} : l.token c matched =
    match c.pattern.inside with
    | none =>
      .ok (.token ⟨c.kind, .text (String.ofList matched), c.pattern.aliases, byteLength matched⟩)
    | some g =>
      match l.inner g matched with
      | .error e => .error e
      | .ok nodes =>
        .ok (.token ⟨c.kind, .nested nodes, c.pattern.aliases, byteLength matched⟩) := by
  unfold token
  cases c.pattern.inside with
  | none => rfl
  | some g =>
    dsimp only
    cases l.inner g matched with
    | error e => rfl
    | ok nodes => rfl

theorem exists_of_token {matched : List Char} {node : Node}
    (h : l.token c matched = .ok node) : ∃ content,
      node = .token ⟨c.kind, content, c.pattern.aliases, byteLength matched⟩ ∧
      match c.pattern.inside with
      | none => content = .text (String.ofList matched)
      | some g => ∃ nodes, l.inner g matched = .ok nodes ∧ content = .nested nodes := by
  rw [token_eq] at h
  split at h
  · cases h
    exact ⟨_, rfl, rfl⟩
  · split at h
    · simp at h
    · rename_i nodes hinner
      cases h
      exact ⟨_, rfl, nodes, hinner, rfl⟩

theorem exists_of_token_error {matched : List Char} {e : Fault}
    (h : l.token c matched = .error e) :
    ∃ g, c.pattern.inside = some g ∧ l.inner g matched = .error e := by
  rw [token_eq] at h
  split at h
  · simp at h
  · rename_i g hinside
    split at h
    · rename_i hinner
      cases h
      exact ⟨g, hinside, hinner⟩
    · simp at h

/-- What a step of the pattern of `c` from a frame on can come to. -/
inductive Stepped (l : Level) (c : Candidate) (text : List Char) (left : List Node) (f : Frame) :
    Except Fault Step → Prop where
  | finish : Stepped l c text left f (.ok .finish)
  | pass {passed : List Node} {g : Frame} : f.nodes = passed ++ g.nodes → passed ≠ [] →
      l.At text (left ++ passed) g → Stepped l c text left f (.ok (.pass passed g))
  | make {h : Hit} {gone : List Node} {token : Node} : h.Fits c.pattern f.nodes f.here gone →
      l.token c h.matched = .ok token → Stepped l c text left f (.ok (.make h token))
  /-- A search fails. -/
  | search {e : Fault} : Blames c.pattern e → Stepped l c text left f (.error e)
  /-- The inner grammar fails. -/
  | inner {h : Hit} {gone : List Node} {g : GrammarId} {e : Fault} :
      h.Fits c.pattern f.nodes f.here gone → c.pattern.inside = some g →
      l.inner g h.matched = .error e → Stepped l c text left f (.error e)

/-- A part of a frame that starts where it should is a frame as well. -/
theorem At.stepped_pass {passed rest : List Node} {here : Cursor} (hat : l.At text left f)
    (hnodes : f.nodes = passed ++ rest) (hpassed : passed ≠ []) (htext : here.text = f.here.text)
    (hoffset : here.offset = f.here.offset + totalLength passed) :
    l.Stepped c text left f (.ok (.pass passed { f with nodes := rest, here := here })) := by
  refine .pass hnodes hpassed ⟨htext.trans hat.text_eq, ?_, ?_, ?_⟩
  · dsimp only
    rw [hoffset, hat.offset_eq, totalLength_append]
  · rw [List.append_assoc, ← hnodes]
    exact hat.covers
  · rw [List.append_assoc, ← hnodes]
    exact hat.count_eq

theorem At.stepped (hat : l.At text left f) (c : Candidate) :
    l.Stepped c text left f (l.step c f) := by
  have hcovers := hat.covers_nodes
  unfold step
  split
  · exact .finish
  · rename_i node more hnodes
    rw [hnodes] at hcovers
    split
    · exact .finish
    · split
      · rename_i t
        obtain ⟨us, vs, hafter, hus, -⟩ := hcovers.exists_cons
        have hlen : t.length = byteLength us := by simpa using hus.totalLength_eq
        obtain ⟨htext, -, hoffset⟩ := Cursor.forward_over hafter
        rw [← hlen] at htext hoffset
        exact hat.stepped_pass hnodes (by simp) htext (by simpa using hoffset)
      · split
        · rename_i hlook
          exact .search (blames_of_look hcovers hlook)
        · exact .finish
        · rename_i hlook
          obtain ⟨heq, hpassed, htext, hoffset⟩ := fits_of_look hcovers hlook
          exact hat.stepped_pass (hnodes.trans heq) hpassed htext hoffset
        · rename_i hlook
          obtain ⟨gone, hfits⟩ := fits_of_look hcovers hlook
          rw [← hnodes] at hfits
          split
          · rename_i htoken
            obtain ⟨g, hinside, hinner⟩ := exists_of_token_error htoken
            exact .inner hfits hinside hinner
          · rename_i htoken
            exact .make hfits htoken

end Level

end Tokenizer

end SyntaxHue
