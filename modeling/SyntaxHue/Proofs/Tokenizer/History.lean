import SyntaxHue.Proofs.Tokenizer.Step

/-!
# The history of a level

A level changes its stream of nodes one hit at a time. `Level.changes` lists the changes of a run,
those of scanning again among them, in the order in which they are made. A change is sound if a
pattern of the level finds its token in the text; a sound change keeps what the stream stands for.
-/

namespace SyntaxHue

namespace Tokenizer

/-- The nodes `gone` in a stream are replaced by a token and the raw text around it. -/
structure Change where
  candidate : Candidate
  left : List Node
  gone : List Node
  right : List Node
  before : List Char
  matched : List Char
  after : List Char
  token : Node

namespace Change

/-- The change that a hit makes at a frame, with `left` before it. -/
def ofHit (c : Candidate) (left : List Node) (f : Frame) (h : Hit) (token : Node) : Change where
  candidate := c
  left := left ++ h.passed
  gone := (f.nodes.drop h.passed.length).take h.covered
  right := h.rest
  before := h.before
  matched := h.matched
  after := h.after
  token := token

/-- The stream before the change. -/
def old (d : Change) : List Node :=
  d.left ++ (d.gone ++ d.right)

/-- The stream after the change. -/
def new (d : Change) : List Node :=
  d.left ++ (raw d.before ++ d.token :: (raw d.after ++ d.right))

/-- Where the token starts. -/
def start (d : Change) : Nat :=
  totalLength d.left + byteLength d.before

/-- Where the token ends. -/
def stop (d : Change) : Nat :=
  d.start + byteLength d.matched

/-- The change is made by a pattern of the level that finds the token. It replaces no token but
    those that lie behind the start of the match and end no later than it. -/
structure Sound (l : Level) (text : List Char) (d : Change) : Prop where
  mem : d.candidate ∈ l.rules
  token_eq : l.token d.candidate d.matched = .ok d.token
  found : d.candidate.pattern.FoundAt text d.start d.matched
  text_eq : ∃ pre post, text = pre ++ ((d.before ++ (d.matched ++ d.after)) ++ post) ∧
    byteLength pre = totalLength d.left
  gone_length : totalLength d.gone = byteLength (d.before ++ (d.matched ++ d.after))
  inside : ∀ k t, TokenAt d.gone k t → byteLength d.before < k ∧
    k + t.length ≤ byteLength d.before + byteLength d.matched
  of_fragment : d.candidate.pattern.mode = .fragment → ∃ s, d.gone = [.text s]
  of_input : d.candidate.pattern.mode = .input → byteLength d.before < totalLength d.gone

end Change

/-- The changes lead from the first stream to the last, and each of them is sound. -/
inductive Linked (l : Level) (text : List Char) : List Node → List Change → List Node → Prop where
  | nil {nodes : List Node} : Linked l text nodes [] nodes
  | cons {d : Change} {log : List Change} {last : List Node} :
      d.Sound l text → Linked l text d.new log last → Linked l text d.old (d :: log) last

namespace Level

/-- The changes that a scan makes. `left` are the nodes of the level before the frame. -/
def scanChanges (l : Level) (c : Candidate) (again : Frame → Except Fault Frame)
    (changes : List Node → Frame → List Change) : Nat → List Node → Frame → List Change
  | 0, _, _ => []
  | fuel + 1, left, f =>
    match l.step c f with
    | .error _ => []
    | .ok .finish => []
    | .ok (.pass passed g) => scanChanges l c again changes fuel (left ++ passed) g
    | .ok (.make h token) =>
      let front := left ++ h.passed ++ raw h.before
      .ofHit c left f h token ::
        if 1 < h.covered then
          changes front (f.again h token) ++
            match again (f.again h token) with
            | .error _ => []
            | .ok sub => scanChanges l c again changes fuel (front ++ [token]) (f.resume h sub)
        else scanChanges l c again changes fuel (front ++ [token]) (f.behind h)

/-- The changes that the first `i` patterns make. -/
def passesChanges (l : Level) : Nat → List Node → Frame → List Change
  | 0, _, _ => []
  | i + 1, left, f =>
    l.passesChanges i left f ++
      match l.passes i f with
      | .error _ => []
      | .ok g =>
        match l.rules[i]? with
        | none => []
        | some c => l.scanChanges c (l.passes i) (l.passesChanges i) (l.bytes + 2) left g

/-- The nodes that a level starts with. -/
def opening (text : List Char) : List Node :=
  [.text (String.ofList text)]

/-- The changes of a run, in order. -/
def changes (l : Level) (text : List Char) : List Change :=
  l.passesChanges l.rules.size [] ⟨opening text, Cursor.start text, 1, none⟩

/-- The streams of a run, from the raw text on, one for each moment between two changes. -/
def history (l : Level) (text : List Char) : List (List Node) :=
  opening text :: (l.changes text).map Change.new

end Level

variable {l : Level} {text : List Char}

theorem Linked.append {first mid last : List Node} {log more : List Change}
    (h : Linked l text first log mid) (hmore : Linked l text mid more last) :
    Linked l text first (log ++ more) last := by
  induction h with
  | nil => exact hmore
  | cons hsound _ ih => exact cons hsound (ih hmore)

/-- The stream stands for the text of the level after a change if it did so before. -/
theorem Change.Sound.covers {d : Change} (hd : d.Sound l text)
    (h : Covers (l.Made text) 0 text d.old) : Covers (l.Made text) 0 text d.new := by
  obtain ⟨content, htoken, -⟩ := Level.exists_of_token hd.token_eq
  obtain ⟨pre, post, htext, hpre⟩ := hd.text_eq
  obtain ⟨us, vs, hcut, hus, hvs⟩ := h.exists_append
  obtain ⟨gs, ws, rfl, hgs, hws⟩ := hvs.exists_append
  -- the old stream is cut where the change says that it is
  obtain ⟨rfl, hrest⟩ := append_inj_of_byteLength (hcut.symm.trans htext)
    (by rw [hpre, hus.totalLength_eq])
  obtain ⟨rfl, rfl⟩ := append_inj_of_byteLength hrest
    (by rw [← hd.gone_length, hgs.totalLength_eq])
  have hmade : l.Made text (0 + byteLength us + byteLength d.before) d.matched
      ⟨d.candidate.kind, content, d.candidate.pattern.aliases, byteLength d.matched⟩ := by
    refine ⟨d.candidate, hd.mem, htoken ▸ hd.token_eq, ?_⟩
    have hfound := hd.found
    rwa [start, hus.totalLength_eq, ← Nat.zero_add (byteLength us)] at hfound
  have htail : Covers (l.Made text) (0 + byteLength us + byteLength d.before)
      (d.matched ++ (d.after ++ ws)) (d.token :: (raw d.after ++ d.right)) := by
    rw [htoken]
    refine .token rfl hmade ((Covers.raw d.after).append ?_)
    simpa [Nat.add_assoc] using hws
  have hnew := hus.append ((Covers.raw d.before).append htail)
  have heq : us ++ (d.before ++ (d.matched ++ (d.after ++ ws))) = text := by
    rw [hcut]
    simp
  rwa [heq] at hnew

theorem Linked.covers {first last : List Node} {log : List Change}
    (h : Linked l text first log last) (hfirst : Covers (l.Made text) 0 text first) :
    Covers (l.Made text) 0 text last := by
  induction h with
  | nil => exact hfirst
  | cons hsound _ ih => exact ih (hsound.covers hfirst)

namespace Level

variable {c : Candidate} {left : List Node} {f : Frame} {h : Hit} {gone : List Node}
  {token : Node}

theorem At.ofHit_old (hfits : h.Fits c.pattern f.nodes f.here gone) :
    (Change.ofHit c left f h token).old = left ++ f.nodes := by
  simp [Change.old, Change.ofHit, hfits.nodes_eq, hfits.covered_eq]

theorem At.sound_ofHit (hat : l.At text left f) (hc : c ∈ l.rules)
    (hfits : h.Fits c.pattern f.nodes f.here gone) (htoken : l.token c h.matched = .ok token) :
    (Change.ofHit c left f h token).Sound l text := by
  have hgone : (f.nodes.drop h.passed.length).take h.covered = gone := by
    simp [hfits.nodes_eq, hfits.covered_eq]
  refine ⟨hc, htoken, ?_, ?_, ?_, ?_, ?_, ?_⟩
  · have hfound := hfits.found
    rw [hat.text_eq, hfits.start_offset, hat.offset_eq] at hfound
    simpa [Change.ofHit, Change.start] using hfound
  · obtain ⟨pre, post, hafter, hpre⟩ := hfits.after_eq
    refine ⟨f.here.before.reverse ++ pre, post, ?_, ?_⟩
    · rw [← hat.text_eq, Cursor.text, hafter]
      simp [Change.ofHit]
    · simp only [Change.ofHit, byteLength_append, totalLength_append, ← f.here.offset_eq,
        hat.offset_eq, hpre]
  · simpa only [Change.ofHit, hgone] using hfits.gone_length
  · simpa only [Change.ofHit, hgone] using hfits.inside
  · simpa only [Change.ofHit, hgone] using hfits.of_fragment
  · simpa only [Change.ofHit, hgone] using hfits.of_input

/-- The nodes before the token of a hit, with `left` before the frame. -/
theorem At.again (hat : l.At text left f) (hc : c ∈ l.rules)
    (hfits : h.Fits c.pattern f.nodes f.here gone) (htoken : l.token c h.matched = .ok token) :
    l.At text (left ++ h.passed ++ raw h.before) (f.again h token) := by
  have hcovers := (hat.sound_ofHit hc hfits htoken).covers (by
    rw [At.ofHit_old hfits]
    exact hat.covers)
  refine ⟨hfits.start_text.trans hat.text_eq, ?_, ?_, ?_⟩
  · simp only [Frame.again, hfits.start_offset, hat.offset_eq, totalLength_append,
      totalLength_raw]
  · simpa [Change.new, Change.ofHit, Frame.again] using hcovers
  · have hcount := hat.count_eq
    rw [hfits.nodes_eq] at hcount
    simp only [List.length_append] at hcount
    simp only [Frame.again, Frame.countAfter, hcount, hfits.covered_eq, List.length_append,
      List.length_cons]
    omega

/-- What is behind the token of a hit, when what follows the token has become `more`. -/
theorem At.behindToken (hat : l.At text left f)
    (hfits : h.Fits c.pattern f.nodes f.here gone) (htoken : l.token c h.matched = .ok token)
    {more : List Node} {count : Nat} {reach : Option Nat}
    (hcovers : Covers (l.Made text) 0 text (left ++ h.passed ++ raw h.before ++ token :: more))
    (hcount : count = (left ++ h.passed ++ raw h.before ++ token :: more).length) :
    l.At text (left ++ h.passed ++ raw h.before ++ [token]) ⟨more, h.stop, count, reach⟩ := by
  obtain ⟨content, rfl, -⟩ := exists_of_token htoken
  refine ⟨hfits.stop_text.trans hat.text_eq, ?_, ?_, ?_⟩
  · simp [hfits.stop_offset, hfits.start_offset, hat.offset_eq, Token.length]
    omega
  · simpa using hcovers
  · simpa using hcount

end Level

end Tokenizer

end SyntaxHue
