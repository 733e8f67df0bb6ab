import SyntaxHue.Proofs.Tokenizer.Checked
import SyntaxHue.Proofs.Tokenizer.Guard

/-!
# No check of a run fails

A checked run comes to what the run on the stream comes to, step by step: where one has a cursor,
the other has the offset of that cursor. So all of its checks succeed, at every level of the tree.
Only a search that fails by itself, or grammars that are nested without end, can stop it. Of the
regular expressions it is assumed that they find nothing before the place where they are looked for.
-/

namespace SyntaxHue

open Tokenizer

namespace Pattern

/-- The expression of the pattern finds nothing before the place where it is looked for. -/
def Forward (p : Pattern) : Prop :=
  ∀ here m, p.regex.search here = .ok (some m) → here.offset ≤ m.span.start.offset

/-- What is cut off for look-behind only moves the start of a match forward. -/
theorem Forward.le_of_find {p : Pattern} {here : Cursor} {m : PatternMatch} (h : p.Forward)
    (hfind : p.find here = .ok (some m)) : here.offset ≤ m.span.start.offset := by
  unfold find at hfind
  split at hfind
  · simp at hfind
  · simp at hfind
  · rename_i found hsearch
    have hle := h here found hsearch
    split at hfind
    · split at hfind
      · rename_i span hspan
        cases hfind
        obtain ⟨-, -, hstart⟩ := Span.trim?_eq_some (Regex.inOrder_of_search hsearch) hspan
        dsimp only
        omega
      · simp at hfind
    · cases hfind
      exact hle

end Pattern

namespace Tokenizer

/-- What looking for a pattern in the whole text comes to, if it finds nothing before the place
    where it is looked for. -/
inductive Looked (p : Pattern) (nodes : List Node) (here : Cursor) : Except Fault Look → Prop where
  | fails {e : Fault} : p.find here = .error e → Looked p nodes here (.error e)
  | nothing : p.find here = .ok none → Looked p nodes here (.ok .stop)
  | atEnd {m : PatternMatch} : p.find here = .ok (some m) → m.span.start.after = [] →
      Looked p nodes here (.ok .stop)
  /-- The match starts in a token, or it would split one. -/
  | abandon {m : PatternMatch} {passed others : List Node} {first : Node} {pos : Nat}
      {there : Cursor} : p.find here = .ok (some m) → m.span.start.after ≠ [] →
      passUpTo m.span.start.offset nodes here.offset = (passed, first :: others, pos) →
      first.isToken = true ∨ coverUpTo m.span.stop.offset (first :: others) pos = none →
      there.offset = pos + first.length →
      Looked p nodes here (.ok (.skip (passed ++ [first]) others there))
  | merge {m : PatternMatch} {others : List Node} {first : Node} {pos : Nat} {hit : Hit} :
      p.find here = .ok (some m) → m.span.start.after ≠ [] →
      passUpTo m.span.start.offset nodes here.offset = (hit.passed, first :: others, pos) →
      first.isToken = false →
      coverUpTo m.span.stop.offset (first :: others) pos = some (hit.covered, hit.rest, hit.reach) →
      hit.matched = m.span.chars → hit.start = m.span.start →
      Looked p nodes here (.ok (.hit hit))

theorem looked_of_lookInInput {P : Nat → List Char → Token → Prop} {pattern : Pattern}
    {nodes : List Node} {here : Cursor} (hforward : pattern.Forward)
    (hcovers : Covers P here.offset here.after nodes) :
    Looked pattern nodes here (lookInInput pattern nodes here) := by
  rw [lookInInput]
  cases hfind : pattern.find here with
  | error e => exact .fails hfind
  | ok found =>
  cases found with
  | none => exact .nothing hfind
  | some m =>
  simp only [bind, Except.bind, pure, Except.pure]
  by_cases hend : m.span.start.after = []
  · rw [hend, if_pos List.isEmpty_nil]
    exact .atEnd hfind hend
  · rw [if_neg (by simpa using hend)]
    have hle := hforward.le_of_find hfind
    generalize hpass : passUpTo m.span.start.offset nodes here.offset = pass
    obtain ⟨passed, left, pos⟩ := pass
    obtain ⟨hnodes, hpos, hgoal, -⟩ := passUpTo_eq hpass
    have hstart : pos - here.offset = totalLength passed := by omega
    cases left with
    | nil =>
      -- all nodes would end before the match, though it does not start at the end of the text
      exfalso
      rw [hnodes, List.append_nil] at hcovers
      have hlength := hcovers.totalLength_eq
      have hfar := hgoal hle
      have htext := (Pattern.inOrder_of_find hfind).start_text
      have hbytes := m.span.start.offset_add_byteLength
      have hhere := here.offset_add_byteLength
      rw [htext] at hbytes
      exact hend (byteLength_eq_zero.1 (by omega))
    | cons first others =>
      rw [hnodes] at hcovers
      have hskip := fits_skip (p := pattern) hcovers
      have hthere : ((here.forward (totalLength passed)).forward first.length).offset =
          pos + first.length := by
        obtain ⟨-, -, -, hoffset⟩ := hskip
        rw [hoffset, hpos, totalLength_append, totalLength_cons, totalLength_nil]
        omega
      have hplace := hcovers.forward_offset
      dsimp only
      rw [hstart]
      by_cases hfirst : first.isToken = true
      · rw [if_pos hfirst]
        exact .abandon hfind hend hpass (Or.inl hfirst) hthere
      · rw [if_neg hfirst]
        cases hcover : coverUpTo m.span.stop.offset (first :: others) pos with
        | none => exact .abandon hfind hend hpass (Or.inr hcover) hthere
        | some cover =>
          obtain ⟨covered, left, reach⟩ := cover
          have hnot : ¬ m.span.start.offset < (here.forward (totalLength passed)).offset := by
            rw [hplace, ← hpos]
            exact Nat.not_lt.2 (hgoal hle)
          dsimp only
          rw [if_neg hnot]
          exact .merge hfind hend hpass (by simpa using hfirst) hcover rfl rfl

namespace Checked

open TokenStream Outcome

/-- What a turn of a scan with cursors is in offsets. -/
def mirror : Splice.Turn → Except Fault Turn
  | .finish => .ok .finish
  | .pass cell there => .ok (.pass cell there.offset)
  | .fail e _ => .error e
  | .make h new b => .ok (.make new h.start.offset h.reach h.covered b.stream)

/-- The checked run `p` is of the level `l`: the patterns are the same, and so is what their inner
    grammars make of parts of the text. -/
structure Serves (p : Pass) (l : Level) : Prop where
  bytes_eq : l.bytes = byteLength p.text
  rules_eq : p.rules = l.rules
  inner : ∀ g matched, matched <:+: p.text → (p.inner g matched).Gives (l.inner g matched)

variable {p : Pass} {l : Level} {s : TokenStream} {front back : List Entry} {here : Cursor}
  {c : Candidate} {reach : Option Nat}

theorem token_gives (hp : Serves p l) {matched : List Char} (hpart : matched <:+: p.text) :
    (p.token c matched).Gives (l.token c matched) := by
  rw [Pass.token, Level.token_eq]
  cases c.pattern.inside with
  | none => exact .pure _
  | some g =>
    have hinner := hp.inner g matched hpart
    dsimp only
    generalize l.inner g matched = r at hinner ⊢
    cases r with
    | error e => exact hinner.bind_error _
    | ok nodes => exact hinner.bind (.pure _)

/-- Raw text is put into a stream as it is on the bench. -/
theorem put_eq (b : Splice.Bench) (cell : Nat) (cs : List Char) :
    put b.stream cell cs = ((b.put cell cs).1, (b.put cell cs).2.stream) := by
  unfold put Splice.Bench.put
  by_cases hcs : cs.isEmpty = true
  · rw [if_pos hcs, if_pos hcs]
  · rw [if_neg hcs, if_neg hcs]
    rfl

/-- A replacement in offsets is the replacement of a hit. -/
theorem replace_gives (hp : Serves p l) (hsize : l.bytes + 3 < UInt64.size)
    (h : Splice.Stands l p.text s front back here) (hs : s.toList.length ≤ l.bytes + 2) {hit : Hit}
    {gone : List Node} (hfits : hit.Fits c.pattern (valuesOf back) here gone) {cell pos : Nat}
    (hcell : cell = firstOf (back.drop hit.passed.length))
    (hpos : pos = here.offset + totalLength hit.passed)
    (hreach : hit.reach = pos + byteLength (hit.before ++ (hit.matched ++ hit.after))) :
    (p.replace c s cell pos (hit.before ++ (hit.matched ++ hit.after)) (byteLength hit.before)
      (byteLength hit.matched) hit.covered).Gives
        (mirror (Splice.replace l c s (firstOf back) hit)) := by
  obtain ⟨mid, old, rest, rfl, hpassed, -, -, hcovered, hplace, hprev⟩ :=
    Splice.exists_cut h.holds hfits
  have hmid : mid.length = hit.passed.length := by
    rw [← hpassed, length_valuesOf]
  have hstart : Splice.Bench.Works s front (front ++ mid ++ (old ++ rest)) ⟨s, []⟩ := .start hplace
  obtain ⟨pre, hpre, hfront, hput⟩ := hstart.put hit.before
  have hlength : (front ++ (mid ++ pre) ++ (old ++ rest)).length < UInt64.size := by
    have hraw := Splice.length_raw_le hit.before
    rw [← hpre, length_valuesOf] at hraw
    rw [hplace.toList_eq, length_valuesOf] at hs
    simp only [List.length_append] at hs ⊢
    omega
  have hremove := remove_lastOf hput.holds hlength old.length
  have hplaceCell : s.prev cell = lastOf (front ++ mid) := by
    rw [hcell, ← hmid, List.drop_left]
    exact hplace.prev_firstOf
  have hpart : hit.matched <:+: p.text := by
    have hfound := hfits.found.isInfix
    rwa [h.text_eq] at hfound
  obtain ⟨hbefore, hmatched, hafter⟩ := slice_parts hit.before hit.matched hit.after
  rw [Pass.replace, hbefore, pure_bind, hmatched, pure_bind, hafter, pure_bind, hplaceCell,
    put_eq ⟨s, []⟩]
  dsimp only
  rw [hfront, hcovered, hremove, pure_bind, Splice.replace, hprev]
  dsimp only
  have htoken := token_gives (c := c) hp hpart
  cases htok : l.token c hit.matched with
  | error e =>
    rw [htok] at htoken
    exact htoken.bind_error _
  | ok token =>
    rw [htok] at htoken
    refine htoken.bind ?_
    rw [hfront, hcovered]
    have hpos' : pos + byteLength hit.before = hit.start.offset := by
      rw [hfits.start_offset, hpos]
    generalize (Splice.Bench.put ⟨s, []⟩ (lastOf (front ++ mid)) hit.before).2 = b
    have hbehind := put_eq ((b.call (.remove (lastOf (front ++ (mid ++ pre))) old.length)).2.call
      (.insert (lastOf (front ++ (mid ++ pre))) token)).2
    dsimp only [Splice.Bench.call, Edit.apply] at hbehind
    rw [hpos', ← hreach, hbehind, ← hcovered]
    exact .pure _

/-- What a scan on a stream does with what `look` returns at a cell. -/
def lookTurn (l : Level) (c : Candidate) (s : TokenStream) (cell : Nat) :
    Except Fault Look → Splice.Turn
  | .error e => .fail e []
  | .ok .stop => .finish
  | .ok (.skip passed _ there) => .pass (s.walk cell passed.length).1 there
  | .ok (.hit h) => Splice.replace l c s cell h

variable {cell : Nat} {node : Node} {rest : List Entry}

theorem onward_eq (h : s.Holds (front ++ (cell, node) :: rest)) (pos : Nat) :
    onward s cell pos = .pass (firstOf rest) (pos + node.length) := by
  rw [onward, Splice.next_token h, nodeLength_of_holds h]

/-- A scan passes a cell as `look` passes its node. -/
theorem onward_gives (mid : List Entry) (left : List Node)
    (h : s.Holds (front ++ (mid ++ (cell, node) :: rest))) {passed : List Node} {there : Cursor}
    {pos : Nat} (hpassed : passed = valuesOf mid ++ [node])
    (hthere : there.offset = pos + node.length) :
    (pure (onward s cell pos) : Outcome Turn).Gives
      (mirror (lookTurn l c s (firstOf (mid ++ (cell, node) :: rest))
        (.ok (.skip passed left there)))) := by
  have hlength : passed.length = mid.length + 1 := by
    rw [hpassed, List.length_append, length_valuesOf, List.length_singleton]
  have hdrop : (mid ++ (cell, node) :: rest).drop (mid.length + 1) = rest := by
    rw [← List.drop_drop, List.drop_left]
    rfl
  have hwalk := h.walk_firstOf (mid.length + 1)
  rw [hdrop] at hwalk
  rw [← List.append_assoc] at h
  rw [onward_eq h, lookTurn, hlength, hwalk, mirror, hthere]
  exact .pure _

theorem inFragment_gives (hp : Serves p l) (hsize : l.bytes + 3 < UInt64.size) {u : String}
    (h : Splice.Stands l p.text s front ((cell, .text u) :: rest) here)
    (hs : s.toList.length ≤ l.bytes + 2) (hmode : c.pattern.mode = .fragment) :
    (p.inFragment c s cell here.offset u).Gives
      (mirror (lookTurn l c s cell (look c.pattern u (valuesOf rest) here))) := by
  have hcovers : Covers (l.Made p.text) here.offset here.after
      (valuesOf ((cell, .text u) :: rest)) := (h.at none).covers_nodes
  have hfind := findAt_gives (p := c.pattern) (Cursor.text_start u.toList)
  have hlook : look c.pattern u (valuesOf rest) here =
      lookInFragment c.pattern u (valuesOf rest) here := by
    rw [look, hmode]
  have hfits : ∀ r, look c.pattern u (valuesOf rest) here = .ok r →
      r.Fits c.pattern (valuesOf ((cell, .text u) :: rest)) here :=
    fun r hr => fits_of_look hcovers hr
  rw [hlook] at hfits ⊢
  rw [Pass.inFragment]
  rw [lookInFragment] at hfits ⊢
  cases hfound : c.pattern.find (Cursor.start u.toList) with
  | error e =>
    rw [hfound] at hfind
    exact hfind.bind_error _
  | ok found =>
    rw [hfound] at hfind hfits
    refine hfind.bind ?_
    cases found with
    | none =>
      obtain ⟨-, -, -, hoffset⟩ := hfits _ rfl
      rw [totalLength_cons, totalLength_nil, Nat.add_zero] at hoffset
      exact onward_gives (l := l) (c := c) [] (valuesOf rest) h.holds rfl hoffset
    | some m =>
      obtain ⟨gone, hfits⟩ := hfits _ rfl
      have horder := Pattern.inOrder_of_find hfound
      rw [Cursor.text_start] at horder
      have hreplace := replace_gives hp hsize h hs hfits rfl rfl (by
        dsimp only
        rw [← horder.text_eq, byteLength_toList, totalLength_nil, Nat.add_zero])
      dsimp only at hreplace ⊢
      rw [← horder.text_eq, ← m.span.start.offset_eq] at hreplace
      exact hreplace

/-- The cell that a match starts in is found, and where it starts. -/
theorem exists_located (h : s.Holds (front ++ back)) {goal offset pos : Nat}
    {passed others : List Node} {first : Node}
    (hpass : passUpTo goal (valuesOf back) offset = (passed, first :: others, pos)) :
    ∃ mid cell rest, back = mid ++ (cell, first) :: rest ∧ valuesOf mid = passed ∧
      valuesOf rest = others ∧
      locate s goal s.cells.size (firstOf back) (offset + s.nodeLength (firstOf back)) =
        pure (cell, pos) := by
  obtain ⟨hnodes, -⟩ := passUpTo_eq hpass
  have hlocate := locate_firstOf h hpass h.length_back_le
  obtain ⟨mid, left, rfl, rfl, hleft⟩ := Splice.exists_of_valuesOf hnodes
  cases left with
  | nil => simp at hleft
  | cons entry rest =>
    rw [valuesOf_cons, List.cons.injEq] at hleft
    obtain ⟨rfl, hothers⟩ := hleft
    rw [length_valuesOf, List.drop_left] at hlocate
    exact ⟨mid, entry.1, rest, rfl, rfl, hothers, hlocate⟩

theorem holdsToken_of_holds (h : s.Holds (front ++ (cell, node) :: rest)) :
    holdsToken s cell = node.isToken := by
  have hvalue := h.value (cell, node) (List.mem_append_right _ List.mem_cons_self)
  rw [holdsToken, hvalue]
  rfl

/-- From the cell of a node on, the cells of the nodes that are covered are counted. -/
theorem swallow_eq (h : s.Holds (front ++ (cell, node) :: rest)) (goal pos : Nat) :
    swallow s goal (s.cells.size + 1) cell 1 pos =
      pure ((coverUpTo goal (node :: valuesOf rest) pos).map fun cover =>
        (cover.1, cover.2.2)) := by
  have hswallow : swallow s goal (s.cells.size + 1) cell (0 + 1) pos =
      pure ((coverUpTo goal (node :: valuesOf rest) pos).map fun cover =>
        (0 + cover.1, cover.2.2)) :=
    swallow_firstOf h (Nat.lt_succ_of_le h.length_back_le)
  simpa only [Nat.zero_add] using hswallow

/-- A match starts at the end of the text if nothing comes behind that place. -/
theorem length_le_start_iff {m : PatternMatch} {text : List Char} (htext : here.text = text)
    (hfound : c.pattern.find here = .ok (some m)) :
    byteLength text ≤ m.span.start.offset ↔ m.span.start.after = [] := by
  have hplace := m.span.start.offset_add_byteLength
  rw [(Pattern.inOrder_of_find hfound).start_text, htext] at hplace
  rw [← byteLength_eq_zero]
  omega

section Cut

variable {hit : Hit} {gone : List Node} {nodes : List Node} {pos : Nat}

/-- What is covered ends where the text ends that is before, in and behind the match. -/
theorem reach_of_coverUpTo (hfits : hit.Fits c.pattern nodes here gone) {goal : Nat}
    {others : List Node} (hnodes : nodes = hit.passed ++ others)
    (hcover : coverUpTo goal others pos = some (hit.covered, hit.rest, hit.reach)) :
    hit.reach = pos + byteLength (hit.before ++ (hit.matched ++ hit.after)) := by
  obtain ⟨gone', hothers, -, hreach, -⟩ := coverUpTo_eq hcover
  have hgone : gone' = gone := by
    have hnodes' := hfits.nodes_eq
    rw [hnodes, hothers] at hnodes'
    exact List.append_cancel_right (List.append_cancel_left hnodes')
  rw [hreach, hgone, hfits.gone_length]

/-- The text that is replaced is cut out of the whole text. -/
theorem slice_of_fits {text : List Char} (htext : here.text = text)
    (hfits : hit.Fits c.pattern nodes here gone) (hpos : pos = here.offset + totalLength hit.passed)
    (hreach : hit.reach = pos + byteLength (hit.before ++ (hit.matched ++ hit.after))) :
    slice text pos hit.reach = pure (hit.before ++ (hit.matched ++ hit.after)) := by
  obtain ⟨pre, post, hafter, hpre⟩ := hfits.after_eq
  have hcut : text = here.before.reverse ++ pre ++
      ((hit.before ++ (hit.matched ++ hit.after)) ++ post) := by
    rw [← htext, Cursor.text, hafter]
    simp only [List.append_assoc]
  rw [hcut]
  refine slice_append _ _ _ ?_ hreach
  rw [byteLength_append, ← here.offset_eq, hpos, hpre]

end Cut

theorem inInput_gives (hp : Serves p l) (hsize : l.bytes + 3 < UInt64.size)
    (hforward : c.pattern.Forward) {u : String}
    (h : Splice.Stands l p.text s front ((cell, .text u) :: rest) here)
    (hs : s.toList.length ≤ l.bytes + 2) (hmode : c.pattern.mode = .input) :
    (p.inInput c s cell here.offset).Gives
      (mirror (lookTurn l c s cell (look c.pattern u (valuesOf rest) here))) := by
  have hcovers : Covers (l.Made p.text) here.offset here.after
      (valuesOf ((cell, .text u) :: rest)) := (h.at none).covers_nodes
  have hlooked := looked_of_lookInInput hforward hcovers
  have hfind := findAt_gives (p := c.pattern) h.text_eq
  have hlook : look c.pattern u (valuesOf rest) here =
      lookInInput c.pattern (valuesOf ((cell, .text u) :: rest)) here := by
    rw [look, hmode]
    rfl
  have hfits : ∀ r, look c.pattern u (valuesOf rest) here = .ok r →
      r.Fits c.pattern (valuesOf ((cell, .text u) :: rest)) here :=
    fun r hr => fits_of_look hcovers hr
  rw [hlook] at hfits ⊢
  rw [Pass.inInput]
  generalize lookInInput c.pattern (valuesOf ((cell, .text u) :: rest)) here = r
    at hlooked hfits ⊢
  cases hlooked with
  | fails hfound =>
    rw [hfound] at hfind
    exact hfind.bind_error _
  | nothing hfound =>
    rw [hfound] at hfind
    exact hfind.bind (.pure _)
  | atEnd hfound hend =>
    rw [hfound] at hfind
    refine hfind.bind ?_
    dsimp only
    rw [if_pos ((length_le_start_iff h.text_eq hfound).2 hend)]
    exact .pure _
  | @abandon m passed others first pos there hfound hend hpass hcause hthere =>
    rw [hfound] at hfind
    refine hfind.bind ?_
    dsimp only
    rw [if_neg (mt (length_le_start_iff h.text_eq hfound).1 hend)]
    obtain ⟨mid, cell', rest', hback, rfl, hothers, hlocate⟩ := exists_located h.holds hpass
    have hholds := h.holds
    rw [hback, ← List.append_assoc] at hholds
    have honward := onward_gives (l := l) (c := c) mid others (hback ▸ h.holds) rfl hthere
    rw [← hback] at honward
    rw [firstOf_cons] at hlocate honward
    dsimp only at hlocate honward
    rw [hlocate, pure_bind, holdsToken_of_holds hholds]
    by_cases hfirst : first.isToken = true
    · rw [if_pos hfirst]
      exact honward
    · have hnone := hcause.resolve_left hfirst
      rw [if_neg hfirst, ← (Pattern.inOrder_of_find hfound).stop_offset, swallow_eq hholds, hothers,
        hnone, Option.map_none, pure_bind]
      exact honward
  | @merge m others first pos hit hfound hend hpass hfirst hcover hmatched hstart =>
    rw [hfound] at hfind
    refine hfind.bind ?_
    dsimp only
    rw [if_neg (mt (length_le_start_iff h.text_eq hfound).1 hend)]
    obtain ⟨gone, hfits⟩ := hfits _ rfl
    obtain ⟨hnodes, hpos, -⟩ := passUpTo_eq hpass
    have hreach := reach_of_coverUpTo hfits hnodes hcover
    have hslice := slice_of_fits h.text_eq hfits hpos hreach
    obtain ⟨mid, cell', rest', hback, hmid, hothers, hlocate⟩ := exists_located h.holds hpass
    have hholds := h.holds
    rw [hback, ← List.append_assoc] at hholds
    have hstart' : m.span.start.offset = byteLength hit.before + pos := by
      rw [← hstart, hfits.start_offset, hpos, Nat.add_comm]
    have hcell : cell' = firstOf (List.drop hit.passed.length ((cell, .text u) :: rest)) := by
      rw [hback, ← hmid, length_valuesOf, List.drop_left]
      rfl
    have hreplace := replace_gives hp hsize h hs hfits hcell hpos hreach
    rw [firstOf_cons] at hlocate
    dsimp only at hlocate
    rw [hlocate, pure_bind, holdsToken_of_holds hholds, hfirst]
    dsimp only
    have hlength : minus (m.span.start.offset + byteLength m.span.chars) m.span.start.offset =
        pure (byteLength m.span.chars) := by
      rw [Nat.add_comm, minus_add]
    rw [if_neg Bool.false_ne_true, hlength, ← (Pattern.inOrder_of_find hfound).stop_offset,
      swallow_eq hholds, hothers, hcover, Option.map_some, pure_bind]
    dsimp only
    rw [hslice, pure_bind, hstart', minus_add, pure_bind, pure_bind, ← hmatched]
    exact hreplace

/-- A turn at a fragment is what it does with what `look` returns there. -/
theorem turn_eq_lookTurn {u : String} (h : s.Holds (front ++ (cell, .text u) :: rest))
    (hgo : ¬ (reach.any (· ≤ here.offset) || l.bytes < s.len.toNat) = true) :
    Splice.turn l c s cell here reach =
      lookTurn l c s cell (look c.pattern u (valuesOf rest) here) := by
  have hvalue := h.value (cell, .text u) (List.mem_append_right _ List.mem_cons_self)
  have hnext := Splice.next_token h
  rw [List.append_cons] at h
  dsimp only at hvalue
  rw [Splice.turn, if_neg hgo, hvalue]
  dsimp only
  rw [hnext, h.valuesFrom_firstOf]
  cases look c.pattern u (valuesOf rest) here with
  | error e => rfl
  | ok r => cases r <;> rfl

theorem turn_gives (hp : Serves p l) (hsize : l.bytes + 3 < UInt64.size)
    (hforward : c.pattern.Forward) (h : Splice.Stands l p.text s front back here)
    (hs : s.toList.length ≤ l.bytes + 2) (hback : back ≠ []) (reach : Option Nat) :
    (p.turn c s (firstOf back) here.offset reach).Gives
      (mirror (Splice.turn l c s (firstOf back) here reach)) := by
  cases back with
  | nil => exact absurd rfl hback
  | cons entry rest =>
  obtain ⟨cell, value⟩ := entry
  have hvalue := h.holds.value (cell, value) (List.mem_append_right _ List.mem_cons_self)
  rw [Pass.turn, firstOf_cons, ← hp.bytes_eq]
  dsimp only at hvalue ⊢
  rw [hvalue]
  by_cases hstop : reach.any (· ≤ here.offset) || l.bytes < s.len.toNat
  · rw [Splice.turn, if_pos hstop, if_pos hstop]
    exact .pure _
  · rw [if_neg hstop]
    cases value with
    | token t =>
      have hcovers : Covers (l.Made p.text) here.offset here.after
          ([.token t] ++ valuesOf rest) := (h.at none).covers_nodes
      have hforward := hcovers.forward_offset
      rw [totalLength_cons, totalLength_nil, Nat.add_zero, Node.length_token] at hforward
      rw [Splice.turn, if_neg hstop, hvalue]
      dsimp only
      rw [mirror, onward_eq h.holds, Splice.next_token h.holds, hforward]
      exact .pure _
    | text u =>
      rw [turn_eq_lookTurn h.holds hstop]
      dsimp only
      cases hmode : c.pattern.mode with
      | fragment => exact inFragment_gives hp hsize h hs hmode
      | input => exact inInput_gives hp hsize hforward h hs hmode

/-! ### Runs -/

/-- Where a scan looks at a cell its offset is that of its cursor. -/
theorem inStep_of_stands {text : List Char} (h : Splice.Stands l text s front back here)
    (hback : back ≠ []) : Head.InStep ⟨s, firstOf back, here.offset⟩ := by
  cases back with
  | nil => exact absurd rfl hback
  | cons entry rest => exact ⟨front, entry.2, rest, h.holds, h.offset_eq⟩

/-- With as many steps as there can be nodes behind it, a scan comes to an end. -/
theorem scan_gives (hp : Serves p l) (hsize : l.bytes + 3 < UInt64.size) (hc : c ∈ l.rules)
    (hforward : c.pattern.Forward) {i : Nat}
    (hagain : ∀ s front back here reach, Splice.Stands l p.text s front back here →
      Splice.Short (l.bytes + 2) s → (p.passes i s (lastOf front) here.offset reach).Gives
        (Splice.passes l i s (lastOf front) here reach).result)
    {n : Nat} (hn : l.bytes + 2 ≤ n + front.length)
    (h : Splice.Stands l p.text s front back here) (hs : Splice.Short (l.bytes + 2) s)
    (reach : Option Nat) :
    (p.scan c (p.passes i) n s (firstOf back) here.offset reach).Gives
      (Splice.scan l i c (Splice.passes l i) n s (firstOf back) here reach).result := by
  induction n generalizing s front back here reach with
  | zero =>
    -- all nodes that there can be are before the scan
    have hback : back = [] := by
      rw [Splice.Short, h.holds.toList_eq, length_valuesOf, List.length_append] at hs
      exact List.eq_nil_of_length_eq_zero (by omega)
    subst hback
    rw [Pass.scan, Splice.scan, if_pos firstOf_nil]
    exact .pure _
  | succ n ih =>
    rw [Pass.scan, Splice.scan]
    by_cases hback : back = []
    · subst hback
      rw [if_pos firstOf_nil, if_pos firstOf_nil]
      exact .pure _
    · have htail := Splice.firstOf_ne_tail h.holds hback
      rw [if_neg htail, if_neg htail]
      refine (Outcome.Gives.visit (inStep_of_stands h hback)).bind ?_
      have hturn := turn_gives hp hsize hforward h hs hback reach
      have hturned := Splice.turned h hc hback reach
      have hall := Splice.keeping_brief l p.text hsize c hc s front back here reach h hback hs
      generalize Splice.turn l c s (firstOf back) here reach = u at hturn hturned hall ⊢
      generalize l.step c ⟨valuesOf back, here, s.len.toNat, reach⟩ = r at hturned
      cases hturned with
      | finish => exact hturn.bind (.pure _)
      | fail => exact hturn.bind_error _
      | @pass mid _ _ _ hmid hrest =>
        have hmidLength := List.length_pos_iff.2 hmid
        have hmore : l.bytes + 2 ≤ n + (front ++ mid).length := by
          rw [List.length_append]
          omega
        exact hturn.bind (ih hmore hrest hs reach)
      | @make hit new b token mid rest htok hstands _ _ hstopText hstop =>
        obtain ⟨hnew, -⟩ := hall
        have hmore : l.bytes + 2 ≤ n + (front ++ (mid ++ [(new, token)])).length := by
          simp only [List.length_append, List.length_singleton]
          omega
        refine hturn.bind ?_
        dsimp only
        by_cases hcovered : 1 < hit.covered
        · have hprev : b.stream.prev new = lastOf (front ++ mid) := hstands.holds.prev_firstOf
          have hsub := hagain _ _ _ _ (some hit.reach) hstands hnew
          have hlead := Splice.passes_leads i hstands (some hit.reach)
          have hbrief := Splice.passes_all (Splice.keeping_brief l p.text hsize) i hstands hnew
            (some hit.reach)
          rw [if_pos hcovered, if_pos hcovered, hprev]
          generalize Splice.passes l i b.stream (lastOf (front ++ mid)) hit.start
            (some hit.reach) = o at hsub hlead hbrief ⊢
          obtain ⟨result, log⟩ := o
          cases result with
          | error e => exact hsub.bind_error _
          | ok left =>
            obtain ⟨t, raised⟩ := left
            obtain ⟨rest', hreaches⟩ := hlead.result t raised rfl
            obtain ⟨content, rfl, -⟩ := Level.exists_of_token htok
            obtain ⟨⟨more, rfl⟩, -⟩ := hreaches.head new _ rest rfl
            have hbehind := hreaches.stands
            have hleft := hbrief.result t raised rfl
            have hscan := ih hmore (hbehind.behindToken hstopText hstop) hleft
              (raise (raised.getD 0) (raise hit.reach reach))
            rw [hstop] at hscan
            refine hsub.bind ?_
            dsimp only [Splice.Outcome.behind]
            rw [Splice.next_token hbehind.holds, nodeLength_of_holds hbehind.holds]
            exact hscan
        · have hscan := ih hmore (hstands.behindToken hstopText hstop) hnew (raise hit.reach reach)
          rw [hstop] at hscan
          rw [if_neg hcovered, if_neg hcovered, Splice.next_token hstands.holds,
            nodeLength_of_holds hstands.holds]
          exact hscan

theorem passes_gives (hp : Serves p l) (hsize : l.bytes + 3 < UInt64.size)
    (hforward : ∀ c ∈ l.rules, c.pattern.Forward) (i : Nat)
    (h : Splice.Stands l p.text s front back here) (hs : Splice.Short (l.bytes + 2) s)
    (reach : Option Nat) :
    (p.passes i s (lastOf front) here.offset reach).Gives
      (Splice.passes l i s (lastOf front) here reach).result := by
  induction i generalizing s front back here reach with
  | zero => exact .pure _
  | succ i ih =>
    have hfirst := ih h hs reach
    have hlead := Splice.passes_leads i h reach
    have hbrief := Splice.passes_all (Splice.keeping_brief l p.text hsize) i h hs reach
    rw [Pass.passes, Splice.passes, hp.rules_eq, ← hp.bytes_eq]
    generalize Splice.passes l i s (lastOf front) here reach = o at hfirst hlead hbrief ⊢
    obtain ⟨result, log⟩ := o
    cases result with
    | error e => exact hfirst.bind_error _
    | ok left =>
      obtain ⟨t, raised⟩ := left
      obtain ⟨rest, hreaches⟩ := hlead.result t raised rfl
      refine hfirst.bind ?_
      dsimp only
      cases hc : l.rules[i]? with
      | none => exact .pure _
      | some c =>
        have hmem := Array.mem_of_getElem? hc
        have hscan := scan_gives hp hsize hmem (hforward c hmem)
          (fun s front back here reach h hs => ih h hs reach) (Nat.le_add_right _ _)
          hreaches.stands (hbrief.result t raised rfl) raised
        dsimp only [Splice.Outcome.behind]
        rw [hreaches.stands.holds.next_lastOf]
        exact hscan

/-- A checked run of a level comes to what the level comes to. -/
theorem run_gives (hp : Serves p l) (hsize : l.bytes + 3 < UInt64.size)
    (hforward : ∀ c ∈ l.rules, c.pattern.Forward) : p.run.Gives (l.run p.text) := by
  obtain ⟨back, hstands, -⟩ := Splice.stands_opening l p.text
  have hpasses := passes_gives hp hsize hforward l.rules.size hstands
    (Splice.short_opening l.bytes p.text) none
  have hvalues : (Splice.run l p.text).result.map (fun left => left.1.toList) = l.run p.text :=
    Splice.values_run hsize
  rw [← hvalues, Splice.run, Pass.run, hp.rules_eq]
  rw [lastOf_nil] at hpasses
  generalize (Splice.passes l l.rules.size (Splice.opening p.text) head (Cursor.start p.text)
    none).result = r at hpasses ⊢
  cases r with
  | error e => exact hpasses.bind_error _
  | ok left => exact hpasses.bind (.pure _)

end Checked

end Tokenizer

namespace Store

variable {s : Store} {d : Nat} {grammar : GrammarId}

/-- The expressions of the store find nothing before the place where they are looked for. -/
def Forward (s : Store) : Prop :=
  ∀ grammar, ∀ rule ∈ (s.effectiveRules grammar).entries, ∀ p ∈ rule.2, p.Forward

theorem Forward.of_mem (h : s.Forward) {c : Candidate}
    (hc : c ∈ candidates (s.effectiveRules grammar)) : c.pattern.Forward := by
  obtain ⟨rule, hrule, -, hp⟩ := mem_candidates.1 hc
  exact h grammar rule hrule _ hp

theorem nested_gives (h : s.Forward) (d : Nat) (grammar : GrammarId) (text : List Char)
    (hsize : byteLength text + 3 < UInt64.size) :
    (Checked.nested s d grammar text).Gives (nested s d grammar text) := by
  induction d generalizing grammar text with
  | zero => exact .fault .endless
  | succ d ih =>
    have hserves : Checked.Serves
        ⟨text, candidates (s.effectiveRules grammar), Checked.nested s d⟩
        (levelAt s d grammar text) := by
      refine ⟨rfl, rfl, ?_⟩
      intro g matched hpart
      have hle := byteLength_le_of_isInfix hpart
      dsimp only at hle
      exact ih g matched (by omega)
    exact Checked.run_gives hserves hsize fun c hc => h.of_mem hc

/-- A tokenization fails only for want of an end, or because of one of the patterns. -/
theorem blames_of_nested {text : List Char} {e : Fault} (h : nested s d grammar text = .error e) :
    e = .endless ∨ ∃ g, ∃ rule ∈ (s.effectiveRules g).entries, ∃ p ∈ rule.2, Blames p e := by
  induction d generalizing grammar text with
  | zero =>
    cases h
    exact Or.inl rfl
  | succ d ih =>
    obtain ⟨c, hc, hblames | ⟨g, offset, matched, -, -, hinner⟩⟩ := Level.fails_of_run h
    · obtain ⟨rule, hrule, -, hp⟩ := mem_candidates.1 hc
      exact Or.inr ⟨grammar, rule, hrule, _, hp, hblames⟩
    · exact ih hinner

/-- No check of a run fails, on a text that is short enough for its nodes to be counted in 64 bits.
    With checks the tokenizer comes to what it comes to without them, and wherever one of its scans
    looks at a cell its offset is in step with the stream, at every level and also if the
    tokenization fails. It stops only where a search of a pattern fails or where grammars are nested
    without end. -/
theorem checked_safe (grammar : GrammarId) (text : String) (h : s.Forward)
    (hsize : text.utf8ByteSize + 3 < UInt64.size) :
    (s.checked text grammar).result = (s.tokenize text grammar).mapError .fault ∧
      (∀ head ∈ (s.checked text grammar).heads, head.InStep) ∧
      ∀ trap, (s.checked text grammar).result = .error trap → trap = .fault .endless ∨
        ∃ g, ∃ rule ∈ (s.effectiveRules g).entries, ∃ p ∈ rule.2, ∃ here e,
          p.find here = .error e ∧ trap = .fault e := by
  have hgives := nested_gives h (depthFor s text.utf8ByteSize) grammar text.toList
    (by rwa [byteLength_toList])
  refine ⟨hgives.result_eq, hgives.heads, ?_⟩
  intro trap htrap
  rw [checked, hgives.result_eq] at htrap
  cases hresult : nested s (depthFor s text.utf8ByteSize) grammar text.toList with
  | ok nodes => simp [hresult, Except.mapError] at htrap
  | error e =>
    rw [hresult] at htrap
    cases htrap
    rcases blames_of_nested hresult with rfl | ⟨g, rule, hrule, p, hp, hblames⟩
    · exact Or.inl rfl
    · rcases hblames with ⟨here, hfind⟩ | ⟨-, here, m, hfind, hlt⟩
      · exact Or.inr ⟨g, rule, hrule, p, hp, here, e, hfind, rfl⟩
      · have hle := (h g rule hrule p hp).le_of_find hfind
        omega

/-- A tame pattern finds nothing before the place where it is looked for. -/
theorem Tame.forward (h : s.Tame) : s.Forward := by
  intro grammar rule hrule p hp here m hsearch
  obtain ⟨-, body, hbody, -⟩ := Pattern.exists_body (h grammar rule hrule p hp)
  obtain ⟨place, z, hle, -, hspan, -⟩ := Regex.does_of_framed hbody hsearch
  rw [hspan]
  exact hle

theorem wellBuilt_listings : listings.wellBuilt 'a' 'b' = true := by
  decide +kernel

theorem checked_safe_listing : listings.Forward ∧ "é (1) 2".utf8ByteSize + 3 < UInt64.size ∧
    ∃ nodes, (listings.checked "é (1) 2" ⟨0⟩).result = .ok nodes ∧
      ∀ head ∈ (listings.checked "é (1) 2" ⟨0⟩).heads, head.InStep := by
  have hforward : listings.Forward := (tame_of_wellBuilt wellBuilt_listings).forward
  have hsize : "é (1) 2".utf8ByteSize + 3 < UInt64.size := by decide
  obtain ⟨nodes, hnodes⟩ := exists_tokenize (tame_of_wellBuilt wellBuilt_listings)
    (wellFounded_handsOn wellBuilt_listings) "é (1) 2" ⟨0⟩
  obtain ⟨hresult, hheads, -⟩ := checked_safe ⟨0⟩ "é (1) 2" hforward hsize
  rw [hnodes] at hresult
  exact ⟨hforward, hsize, nodes, hresult, hheads⟩

end Store

end SyntaxHue
