import SyntaxHue.Proofs.Stream.Edits
import SyntaxHue.Proofs.Tokenizer.Run

/-!
# A level on its stream

The nodes of a level stand in a linked stream, and what a match replaces is taken out of it and put
into it cell by cell. A scan keeps the number of its cell while what follows is scanned again and
the stream changes under it. `Splice.run` is the run of a level in these terms, and it logs the
calls that change the stream, the cells that it looks at, and every part that is scanned again.
-/

namespace SyntaxHue

namespace TokenStream

/-- The cell is the head of the stream or one of its linked cells. -/
def Has (s : TokenStream) (cell : Nat) : Prop :=
  ∃ entries, s.Holds entries ∧ cell ∈ head :: cellsOf entries

/-- The cell is one of the linked cells of the stream. -/
def Links (s : TokenStream) (cell : Nat) : Prop :=
  ∃ entries, s.Holds entries ∧ cell ∈ cellsOf entries

end TokenStream

namespace Tokenizer

namespace Splice

open TokenStream

/-- A part of a level that was scanned again. -/
structure Rescan where
  /-- The number of the pattern whose match is the cause. -/
  cause : Nat
  /-- The cell of the token that the match made, and where the token starts. -/
  token : Nat
  start : Nat
  /-- The stream before and afterwards. -/
  before : TokenStream
  after : TokenStream
  /-- The reach at the end. -/
  reach : Nat
  /-- The numbers of the patterns that were applied, also in the parts that were scanned again
      inside this one, and the offsets where the replaced nodes ended. -/
  applied : List Nat
  stops : List Nat

/-- What a run does to its stream. -/
structure Log where
  /-- The calls that change the stream, each with the stream that it changes. -/
  edits : List (TokenStream × Edit) := []
  /-- The cells that scans look at, each with the stream at that time. -/
  visits : List (TokenStream × Nat) := []
  rescans : List Rescan := []
  /-- The numbers of the patterns that are applied. -/
  applied : List Nat := []
  /-- The offsets where replaced nodes end. -/
  stops : List Nat := []

/-- One log after the other. -/
def Log.append (a b : Log) : Log where
  edits := a.edits ++ b.edits
  visits := a.visits ++ b.visits
  rescans := a.rescans ++ b.rescans
  applied := a.applied ++ b.applied
  stops := a.stops ++ b.stops

instance : Append Log := ⟨Log.append⟩

/-- The stream and the reach that a scan leaves, unless it fails, and its log in any case. -/
structure Outcome where
  result : Except Fault (TokenStream × Option Nat)
  log : Log := {}

/-- An outcome with a log before it. -/
def Outcome.behind (o : Outcome) (log : Log) : Outcome :=
  ⟨o.result, log ++ o.log⟩

/-- A stream that is edited, and the calls so far. -/
structure Bench where
  stream : TokenStream
  edits : List (TokenStream × Edit) := []

namespace Bench

def call (b : Bench) (edit : Edit) : Nat × Bench :=
  let (answer, s) := edit.apply b.stream
  (answer, ⟨s, b.edits ++ [(b.stream, edit)]⟩)

/-- Puts raw text behind a cell, unless it is empty. Returns the cell of the text, or the one that
    nothing was put behind. -/
def put (b : Bench) (cell : Nat) (cs : List Char) : Nat × Bench :=
  if cs.isEmpty then (cell, b) else b.call (.insert cell (.text (String.ofList cs)))

end Bench

/-- What a scan does at a cell. -/
inductive Turn where
  | finish
  | pass (cell : Nat) (here : Cursor)
  | fail (e : Fault) (edits : List (TokenStream × Edit))
  /-- The token of `h` is in the cell `new`. -/
  | make (h : Hit) (new : Nat) (b : Bench)

/-- Replaces the nodes of a hit by its token and the raw text around it. `cell` is where the scan
    has come to. -/
def replace (l : Level) (c : Candidate) (s : TokenStream) (cell : Nat) (h : Hit) : Turn :=
  let old := (s.walk cell h.passed.length).1
  let (front, b) := Bench.put ⟨s, []⟩ (s.prev old) h.before
  let (_, b) := b.call (.remove front h.covered)
  match l.token c h.matched with
  | .error e => .fail e b.edits
  | .ok token =>
    let (new, b) := b.call (.insert front token)
    .make h new (b.put new h.after).2

/-- Looks for the pattern of `c` at a cell, where `here` is. -/
def turn (l : Level) (c : Candidate) (s : TokenStream) (cell : Nat) (here : Cursor)
    (reach : Option Nat) : Turn :=
  if reach.any (· ≤ here.offset) || l.bytes < s.len.toNat then .finish
  else
    match s.value? cell with
    | none => .pass (s.next cell) here
    | some (.token t) => .pass (s.next cell) (here.forward t.length)
    | some (.text fragment) =>
      match look c.pattern fragment (s.valuesFrom s.cells.size (s.next cell)) here with
      | .error e => .fail e []
      | .ok .stop => .finish
      | .ok (.skip passed _ there) => .pass (s.walk cell passed.length).1 there
      | .ok (.hit h) => replace l c s cell h

/-- Applies pattern number `rule` from a cell on. `again` scans from behind a cell on with the
    patterns before this one. -/
def scan (l : Level) (rule : Nat) (c : Candidate)
    (again : TokenStream → Nat → Cursor → Option Nat → Outcome) :
    Nat → TokenStream → Nat → Cursor → Option Nat → Outcome
  | 0, s, _, _, reach => { result := .ok (s, reach) }
  | fuel + 1, s, cell, here, reach =>
    if cell = tail then { result := .ok (s, reach) }
    else
      match turn l c s cell here reach with
      | .finish => { result := .ok (s, reach), log := { visits := [(s, cell)] } }
      | .pass cell' there =>
        (scan l rule c again fuel s cell' there reach).behind { visits := [(s, cell)] }
      | .fail e edits => { result := .error e, log := { visits := [(s, cell)], edits := edits } }
      | .make h new b =>
        let log : Log := { visits := [(s, cell)], edits := b.edits, stops := [h.reach] }
        let reach := raise h.reach reach
        if 1 < h.covered then
          let sub := again b.stream (b.stream.prev new) h.start (some h.reach)
          match sub.result with
          | .error e => { result := .error e, log := log ++ sub.log }
          | .ok (t, raised) =>
            let rescan : Rescan :=
              ⟨rule, new, h.start.offset, b.stream, t, raised.getD 0, sub.log.applied,
                sub.log.stops⟩
            (scan l rule c again fuel t (t.next new) h.stop (raise (raised.getD 0) reach)).behind
              (log ++ sub.log ++ { visits := [(t, new)], rescans := [rescan] })
        else
          (scan l rule c again fuel b.stream (b.stream.next new) h.stop reach).behind
            (log ++ { visits := [(b.stream, new)] })

/-- Applies the first `i` patterns, one after the other, each from behind `start` on. -/
def passes (l : Level) : Nat → TokenStream → Nat → Cursor → Option Nat → Outcome
  | 0, s, _, _, reach => { result := .ok (s, reach) }
  | i + 1, s, start, here, reach =>
    let first := passes l i s start here reach
    match first.result with
    | .error _ => first
    | .ok (t, raised) =>
      match l.rules[i]? with
      | none => first
      | some c =>
        (scan l i c (passes l i) (l.bytes + 2) t (t.next start) here raised).behind
          (first.log ++ { applied := [i] })

/-- The stream that a level starts with. -/
def opening (text : List Char) : TokenStream :=
  (empty.insertAfter head (.text (String.ofList text))).2

/-- The run of a level on a stream of its own. -/
def run (l : Level) (text : List Char) : Outcome :=
  passes l l.rules.size (opening text) head (Cursor.start text) none

/-! ### Calls -/

variable {s t : TokenStream} {front mid back : List Entry} {b : Bench} {cs : List Char}

theorem has_lastOf (h : s.Holds (front ++ back)) : s.Has (lastOf front) := by
  refine ⟨_, h, ?_⟩
  rw [cellsOf_append, ← List.cons_append]
  exact List.mem_append_left _ (lastOf_mem front)

/-- The stream `s` has been edited behind `front`, always behind its head or a linked cell, and
    holds `entries` now. -/
structure Bench.Works (s : TokenStream) (front entries : List Entry) (b : Bench) : Prop where
  holds : b.stream.Holds entries
  keeps : Keeps front s b.stream
  edits : ∀ call ∈ b.edits, call.1.Has call.2.cell

namespace Bench.Works

theorem start {entries : List Entry} (h : s.Holds entries) : Works s front entries ⟨s, []⟩ :=
  ⟨h, .refl front s, by simp⟩

theorem call (h : b.Works s front (front ++ mid ++ back)) {edit : Edit} {entries : List Entry}
    (hcell : edit.cell = lastOf (front ++ mid)) (hholds : (b.call edit).2.stream.Holds entries)
    (hkeeps : Keeps (front ++ mid) b.stream (b.call edit).2.stream) :
    (b.call edit).2.Works s front entries := by
  refine ⟨hholds, h.keeps.trans hkeeps.mono, ?_⟩
  intro call hcall
  rcases List.mem_append.1 hcall with hcall | hcall
  · exact h.edits call hcall
  · rw [List.mem_singleton.1 hcall]
    dsimp only
    rw [hcell]
    exact has_lastOf h.holds

theorem insert (h : b.Works s front (front ++ mid ++ back)) (value : Node) :
    ∃ new, (b.call (.insert (lastOf (front ++ mid)) value)).1 = new ∧
      (b.call (.insert (lastOf (front ++ mid)) value)).2.Works s front
        (front ++ (mid ++ [(new, value)]) ++ back) := by
  refine ⟨_, rfl, h.call rfl ?_ (h.holds.keeps_insertAfter value)⟩
  rw [List.append_assoc, List.append_assoc, List.singleton_append, ← List.append_assoc]
  exact h.holds.insertAfter value

theorem remove {gone : List Entry} (h : b.Works s front (front ++ mid ++ (gone ++ back))) :
    (b.call (.remove (lastOf (front ++ mid)) gone.length)).2.Works s front
      (front ++ mid ++ back) := by
  have hholds := h.holds.removeAfter gone.length
  rw [List.drop_left] at hholds
  exact h.call rfl hholds (h.holds.keeps_removeAfter gone.length)

theorem put (h : b.Works s front (front ++ mid ++ back)) (cs : List Char) :
    ∃ new, valuesOf new = raw cs ∧
      (b.put (lastOf (front ++ mid)) cs).1 = lastOf (front ++ (mid ++ new)) ∧
      (b.put (lastOf (front ++ mid)) cs).2.Works s front (front ++ (mid ++ new) ++ back) := by
  unfold Bench.put raw
  by_cases hcs : cs.isEmpty = true
  · rw [if_pos hcs, if_pos hcs]
    exact ⟨[], rfl, by rw [List.append_nil], by rwa [List.append_nil]⟩
  · rw [if_neg hcs, if_neg hcs]
    obtain ⟨new, hnew, hworks⟩ := h.insert (.text (String.ofList cs))
    refine ⟨[(new, .text (String.ofList cs))], rfl, ?_, hworks⟩
    rw [hnew, ← List.append_assoc, lastOf_concat]

end Bench.Works

/-! ### One turn -/

variable {l : Level} {c : Candidate} {text : List Char} {here there : Cursor} {reach : Option Nat}

/-- A scan of the level has come to `here` in its stream, with `front` before it. -/
structure Stands (l : Level) (text : List Char) (s : TokenStream) (front back : List Entry)
    (here : Cursor) : Prop where
  holds : s.Holds (front ++ back)
  text_eq : here.text = text
  offset_eq : here.offset = totalLength (valuesOf front)
  covers : Covers (l.Made text) 0 text (valuesOf (front ++ back))

/-- The part of the level that is left, as a frame. -/
theorem Stands.at (h : Stands l text s front back here) (reach : Option Nat) :
    l.At text (valuesOf front) ⟨valuesOf back, here, (front ++ back).length, reach⟩ := by
  refine ⟨h.text_eq, h.offset_eq, ?_, ?_⟩
  · rw [← valuesOf_append]
    exact h.covers
  · rw [← valuesOf_append, length_valuesOf]

/-- A scan moves on over some cells. -/
theorem Stands.over (h : Stands l text s front (mid ++ back) here) (htext : there.text = text)
    (hoffset : there.offset = here.offset + totalLength (valuesOf mid)) :
    Stands l text s (front ++ mid) back there := by
  refine ⟨?_, htext, ?_, ?_⟩
  · rw [List.append_assoc]
    exact h.holds
  · rw [hoffset, h.offset_eq, valuesOf_append, totalLength_append]
  · rw [List.append_assoc]
    exact h.covers

/-- A scan is put back to a place before. -/
theorem Stands.rewind (h : Stands l text s (front ++ mid) back there) (htext : here.text = text)
    (hoffset : here.offset = totalLength (valuesOf front)) :
    Stands l text s front (mid ++ back) here := by
  refine ⟨?_, htext, hoffset, ?_⟩
  · rw [← List.append_assoc]
    exact h.holds
  · rw [← List.append_assoc]
    exact h.covers

/-- What a scan does at a cell, next to what it does with the nodes that are left. -/
inductive Turned (l : Level) (c : Candidate) (text : List Char) (s : TokenStream)
    (front back : List Entry) (reach : Option Nat) : Turn → Except Fault Step → Prop where
  | finish : Turned l c text s front back reach .finish (.ok .finish)
  | pass {mid rest : List Entry} {there : Cursor} : back = mid ++ rest → mid ≠ [] →
      Stands l text s (front ++ mid) rest there →
      Turned l c text s front back reach (.pass (firstOf rest) there)
        (.ok (.pass (valuesOf mid) ⟨valuesOf rest, there, s.len.toNat, reach⟩))
  | fail {e : Fault} {edits : List (TokenStream × Edit)} :
      (∀ call ∈ edits, call.1.Has call.2.cell) →
      Turned l c text s front back reach (.fail e edits) (.error e)
  /-- The token is in the cell `new`, with `mid` and the raw text before the token between it and
      the place of the scan. -/
  | make {h : Hit} {new : Nat} {b : Bench} {token : Node} {mid rest : List Entry} :
      l.token c h.matched = .ok token →
      Stands l text b.stream (front ++ mid) ((new, token) :: rest) h.start →
      valuesOf mid = h.passed ++ raw h.before → valuesOf rest = raw h.after ++ h.rest →
      h.stop.text = text → h.stop.offset = h.start.offset + token.length →
      Keeps front s b.stream → (∀ call ∈ b.edits, call.1.Has call.2.cell) →
      s.len.toNat ≤ l.bytes →
      (front ++ mid ++ (new, token) :: rest).length + h.covered =
        (front ++ back).length + (raw h.before).length + 1 + (raw h.after).length →
      Turned l c text s front back reach (.make h new b) (.ok (.make h token))

/-- A list of nodes in cells is cut where the list of nodes is cut. -/
theorem exists_of_valuesOf {entries : List Entry} {xs ys : List Node}
    (h : valuesOf entries = xs ++ ys) :
    ∃ as bs, entries = as ++ bs ∧ valuesOf as = xs ∧ valuesOf bs = ys :=
  List.map_eq_append_iff.1 h

/-- Where a hit cuts the stream: behind the nodes that it passes, and behind those it replaces. -/
theorem exists_cut (h : s.Holds (front ++ back)) {p : Pattern} {hit : Hit} {gone : List Node}
    (hfits : hit.Fits p (valuesOf back) here gone) :
    ∃ mid old rest, back = mid ++ (old ++ rest) ∧ valuesOf mid = hit.passed ∧
      valuesOf old = gone ∧ valuesOf rest = hit.rest ∧ hit.covered = old.length ∧
      s.Holds (front ++ mid ++ (old ++ rest)) ∧
      s.prev (s.walk (firstOf back) hit.passed.length).1 = lastOf (front ++ mid) := by
  obtain ⟨mid, others, rfl, hmid, hothers⟩ := exists_of_valuesOf hfits.nodes_eq
  obtain ⟨old, rest, rfl, rfl, hrest⟩ := exists_of_valuesOf hothers
  have hcovered := hfits.covered_eq
  rw [length_valuesOf] at hcovered
  have hplace := h
  rw [← List.append_assoc] at hplace
  refine ⟨mid, old, rest, rfl, hmid, rfl, hrest, hcovered, hplace, ?_⟩
  rw [h.walk_firstOf, ← hmid, length_valuesOf, List.drop_left]
  exact hplace.prev_firstOf

theorem turned_replace (hstands : Stands l text s front back here) (hc : c ∈ l.rules)
    (hlen : s.len.toNat ≤ l.bytes) (reach : Option Nat) {h : Hit} {gone : List Node}
    (hfits : h.Fits c.pattern (valuesOf back) here gone) :
    Turned l c text s front back reach (replace l c s (firstOf back) h)
      (match l.token c h.matched with
      | .error e => .error e
      | .ok token => .ok (.make h token)) := by
  obtain ⟨mid, old, rest, rfl, hmid, rfl, hrest, hcovered, hplace, hprev⟩ :=
    exists_cut hstands.holds hfits
  have hstart : Bench.Works s front (front ++ mid ++ (old ++ rest)) ⟨s, []⟩ := .start hplace
  obtain ⟨pre, hpre, hfront, hput⟩ := hstart.put h.before
  have hremove := hput.remove
  rw [replace, hprev]
  dsimp only
  rw [hfront, hcovered]
  generalize hb : (Bench.call _ (.remove _ old.length)).2 = b at hremove ⊢
  cases htoken : l.token c h.matched with
  | error e => exact .fail hremove.edits
  | ok token =>
    obtain ⟨new, hnew, hinsert⟩ := hremove.insert token
    have hlast : lastOf (front ++ (mid ++ pre ++ [(new, token)])) = new := by
      rw [← List.append_assoc, lastOf_concat]
    obtain ⟨post, hpost, -, hdone⟩ := hinsert.put h.after
    rw [hlast] at hdone
    obtain ⟨htext, hoffset, hcovers, -⟩ := (hstands.at reach).again hc hfits htoken
    have hentries : front ++ (mid ++ pre ++ [(new, token)] ++ post) ++ rest =
        front ++ (mid ++ pre) ++ (new, token) :: (post ++ rest) := by
      simp
    have hvalues : valuesOf (mid ++ pre) = h.passed ++ raw h.before := by
      rw [valuesOf_append, hmid, hpre]
    have hrest' : valuesOf (post ++ rest) = raw h.after ++ h.rest := by
      rw [valuesOf_append, hpost, hrest]
    have hlength : token.length = byteLength h.matched := by
      obtain ⟨content, rfl, -⟩ := Level.exists_of_token htoken
      rfl
    rw [hentries] at hdone
    dsimp only
    rw [hnew]
    refine .make htoken ⟨hdone.holds, htext, ?_, ?_⟩ hvalues hrest' ?_ ?_ hdone.keeps hdone.edits
      hlen ?_
    · rw [valuesOf_append, hvalues, ← List.append_assoc]
      exact hoffset
    · rw [valuesOf_append, valuesOf_append, hvalues, valuesOf_cons, hrest', ← List.append_assoc]
      exact hcovers
    · exact hfits.stop_text.trans hstands.text_eq
    · rw [hfits.stop_offset, hlength]
    · rw [← hpre, ← hpost, hcovered]
      simp only [List.length_append, List.length_cons, length_valuesOf]
      omega

theorem turned (h : Stands l text s front back here) (hc : c ∈ l.rules) (hback : back ≠ [])
    (reach : Option Nat) :
    Turned l c text s front back reach (turn l c s (firstOf back) here reach)
      (l.step c ⟨valuesOf back, here, s.len.toNat, reach⟩) := by
  cases back with
  | nil => exact absurd rfl hback
  | cons entry rest =>
  obtain ⟨cell, value⟩ := entry
  have hvalue := h.holds.value (cell, value) (List.mem_append_right _ List.mem_cons_self)
  have hcovers := (h.at reach).covers_nodes
  have hholds := h.holds
  rw [List.append_cons] at hholds
  have hnext := hholds.next_lastOf
  rw [lastOf_concat] at hnext
  dsimp only at hvalue hcovers hnext
  rw [valuesOf_cons] at hcovers
  rw [turn, Level.step, firstOf_cons, valuesOf_cons]
  dsimp only
  rw [hvalue, hnext, hholds.valuesFrom_firstOf]
  by_cases hstop : reach.any (· ≤ here.offset) || l.bytes < s.len.toNat
  · rw [if_pos hstop, if_pos hstop]
    exact .finish
  · rw [if_neg hstop, if_neg hstop]
    have hlen : s.len.toNat ≤ l.bytes := by
      simp only [Bool.or_eq_true, decide_eq_true_eq, not_or] at hstop
      exact Nat.le_of_not_lt hstop.2
    cases value with
    | token t =>
      obtain ⟨us, vs, hafter, hus, -⟩ := hcovers.exists_cons
      have hlength : t.length = byteLength us := by simpa using hus.totalLength_eq
      obtain ⟨htext, -, hoffset⟩ := Cursor.forward_over hafter
      rw [← hlength] at htext hoffset
      have hover : (here.forward t.length).offset =
          here.offset + totalLength (valuesOf [(cell, .token t)]) := by
        simpa using hoffset
      exact .pass rfl (List.cons_ne_nil _ _) (h.over (htext.trans h.text_eq) hover)
    | text fragment =>
      dsimp only at hcovers ⊢
      cases hlook : look c.pattern fragment (valuesOf rest) here with
      | error e => exact .fail (by simp)
      | ok r =>
      have hfits := fits_of_look hcovers hlook
      cases r with
      | stop => exact .finish
      | skip passed left there =>
        obtain ⟨hnodes, hpassed, htext, hoffset⟩ := hfits
        have hvalues : valuesOf ((cell, .text fragment) :: rest) = passed ++ left := hnodes
        obtain ⟨mid, others, heq, rfl, rfl⟩ := exists_of_valuesOf hvalues
        have hwalk := h.holds.walk_firstOf mid.length
        rw [firstOf_cons, heq, List.drop_left] at hwalk
        rw [heq] at h
        dsimp only
        rw [length_valuesOf, hwalk]
        refine .pass heq ?_ (h.over (htext.trans h.text_eq) hoffset)
        rintro rfl
        exact hpassed rfl
      | hit hit =>
        obtain ⟨gone, hfits⟩ := hfits
        exact turned_replace h hc hlen reach hfits

end Splice

end Tokenizer

end SyntaxHue
