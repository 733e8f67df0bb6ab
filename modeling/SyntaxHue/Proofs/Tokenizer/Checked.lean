import SyntaxHue.Proofs.Tokenizer.Rescan

/-!
# A run that checks what it does

Offsets in bytes are what the tokenizer counts with on a stream: where a scan is, where a match
starts and ends, and where a text is cut. The run here keeps such an offset beside its cell. It
checks every cut of a text, every subtraction and every search through the stream, and stops with a
`Trap` where a check fails. It also notes every place where a scan looks at a cell, with the offset
that it has there, in the levels inside tokens as well, and whether it gets to its end or not.
-/

namespace SyntaxHue

namespace Tokenizer

namespace Checked

open TokenStream

/-- Why a checked run does not go on. -/
inductive Trap where
  /-- A search fails, or grammars are nested in each other without end. -/
  | fault (e : Fault)
  /-- A text is cut inside a character, past its end, or to a place before the start. -/
  | cut
  /-- A number would fall below zero. -/
  | below
  /-- A search through the stream comes to the tail, or a loop over its cells to no end. -/
  | lost

/-- A place where a scan looks at a cell, and the offset that it has there. -/
structure Head where
  stream : TokenStream
  cell : Nat
  pos : Nat

/-- The offset is in step with the stream: before the cell, which is a linked one, there are nodes
    of that length. -/
def Head.InStep (h : Head) : Prop :=
  ∃ front node back, h.stream.Holds (front ++ (h.cell, node) :: back) ∧
    h.pos = totalLength (valuesOf front)

/-- What a checked computation comes to, and where its scans have been, also if it fails. -/
structure Outcome (α : Type) where
  result : Except Trap α
  heads : List Head := []

namespace Outcome

variable {α β : Type}

def bind (o : Outcome α) (f : α → Outcome β) : Outcome β :=
  match o.result with
  | .error t => ⟨.error t, o.heads⟩
  | .ok a => ⟨(f a).result, o.heads ++ (f a).heads⟩

instance : Monad Outcome where
  pure a := ⟨.ok a, []⟩
  bind := bind

/-- A failed check. -/
def trap (t : Trap) : Outcome α :=
  ⟨.error t, []⟩

/-- A scan looks at a cell. -/
def visit (h : Head) : Outcome Unit :=
  ⟨.ok (), [h]⟩

end Outcome

open Outcome

/-! ### Checked operations -/

/-- The difference of two numbers. -/
def minus (a b : Nat) : Outcome Nat :=
  if b ≤ a then pure (a - b) else trap .below

/-- The text between two offsets in bytes. -/
def slice (cs : List Char) (start stop : Nat) : Outcome (List Char) :=
  if start ≤ stop then
    match splitBytes? start cs with
    | none => trap .cut
    | some (_, behind) =>
      match splitBytes? (stop - start) behind with
      | none => trap .cut
      | some (part, _) => pure part
  else trap .cut

/-- Looks for a pattern in a text, from an offset on. -/
def findAt (p : Pattern) (cs : List Char) (pos : Nat) : Outcome (Option PatternMatch) :=
  match Cursor.at? cs pos with
  | none => trap .cut
  | some here =>
    match p.find here with
    | .error e => trap (.fault e)
    | .ok found => pure found

/-- Puts raw text behind a cell, unless it is empty. Returns the cell of the text, or the one that
    nothing was put behind. -/
def put (s : TokenStream) (cell : Nat) (cs : List Char) : Nat × TokenStream :=
  if cs.isEmpty then (cell, s) else s.insertAfter cell (.text (String.ofList cs))

/-- Unlinks cells behind a cell. The number of values must not fall below zero. -/
def remove (s : TokenStream) (cell count : Nat) : Outcome TokenStream := do
  let (removed, t) := s.removeAfter cell count
  let _ ← minus s.len.toNat removed
  return t

/-- The cell that offset `goal` lies in, and where it starts, from a cell on that ends at `stop`. -/
def locate (s : TokenStream) (goal : Nat) : Nat → Nat → Nat → Outcome (Nat × Nat)
  | 0, _, _ => trap .lost
  | fuel + 1, cell, stop =>
    if stop ≤ goal then
      if s.next cell = tail then trap .lost
      else locate s goal fuel (s.next cell) (stop + s.nodeLength (s.next cell))
    else do
      let pos ← minus stop (s.nodeLength cell)
      return (cell, pos)

/-- Whether a cell holds a token. -/
def holdsToken (s : TokenStream) (cell : Nat) : Bool :=
  (s.value? cell).any Node.isToken

/-- Whether a cell holds raw text. -/
def holdsText (s : TokenStream) (cell : Nat) : Bool :=
  (s.value? cell).any fun node => !node.isToken

/-- Counts the cells that start before offset `goal`, and the raw ones right behind them, from a
    cell on that starts at `stop`. Returns their number, counted from one on, and where they end,
    or `none` if a token would be split. -/
def swallow (s : TokenStream) (goal : Nat) :
    Nat → Nat → Nat → Nat → Outcome (Option (Nat × Nat))
  | 0, _, _, _ => trap .lost
  | fuel + 1, cell, count, stop =>
    if cell ≠ tail ∧ (stop < goal ∨ holdsText s cell) then
      if holdsToken s cell ∧ goal < stop + s.nodeLength cell then pure none
      else swallow s goal fuel (s.next cell) (count + 1) (stop + s.nodeLength cell)
    else do
      let covered ← minus count 1
      return some (covered, stop)

/-! ### The run of a level -/

/-- What a level is run with. -/
structure Pass where
  text : List Char
  rules : Array Candidate
  /-- Tokenizes the text of a token with its inner grammar. -/
  inner : GrammarId → List Char → Outcome (List Node)

/-- What a scan does at a cell. -/
inductive Turn where
  | finish
  | pass (cell pos : Nat)
  /-- A token was put into the cell `new`, which starts at `pos`, in place of `covered` nodes that
      ended at `reach`. -/
  | make (new pos reach covered : Nat) (s : TokenStream)

/-- On to the cell behind one that starts at `pos`. -/
def onward (s : TokenStream) (cell pos : Nat) : Turn :=
  .pass (s.next cell) (pos + s.nodeLength cell)

namespace Pass

variable (p : Pass)

/-- The token that a pattern makes of a text. -/
def token (c : Candidate) (matched : List Char) : Outcome Node :=
  match c.pattern.inside with
  | none =>
    pure (.token ⟨c.kind, .text (String.ofList matched), c.pattern.aliases, byteLength matched⟩)
  | some g => do
    let nodes ← p.inner g matched
    return .token ⟨c.kind, .nested nodes, c.pattern.aliases, byteLength matched⟩

/-- Replaces `covered` nodes from a cell on, which starts at `pos`, by a token and the raw text
    around it. They hold `fragment`, and in it the text of the token is at `start`. -/
def replace (c : Candidate) (s : TokenStream) (cell pos : Nat) (fragment : List Char)
    (start length covered : Nat) : Outcome Turn := do
  let before ← slice fragment 0 start
  let matched ← slice fragment start (start + length)
  let after ← slice fragment (start + length) (byteLength fragment)
  let (front, s) := put s (s.prev cell) before
  let s ← remove s front covered
  let token ← p.token c matched
  let (new, s) := s.insertAfter front token
  let (_, s) := put s new after
  return .make new (pos + byteLength before) (pos + byteLength fragment) covered s

/-- Looks for a pattern in the fragment of a cell. -/
def inFragment (c : Candidate) (s : TokenStream) (cell pos : Nat) (fragment : String) :
    Outcome Turn := do
  match ← findAt c.pattern fragment.toList 0 with
  | none => return onward s cell pos
  | some m =>
    p.replace c s cell pos fragment.toList m.span.start.offset (byteLength m.span.chars) 1

/-- Looks for a pattern in the whole text, from a cell on. -/
def inInput (c : Candidate) (s : TokenStream) (cell pos : Nat) : Outcome Turn := do
  match ← findAt c.pattern p.text pos with
  | none => return .finish
  | some m =>
    let start := m.span.start.offset
    let stop := start + byteLength m.span.chars
    if byteLength p.text ≤ start then return .finish
    else
      let (cell, pos) ← locate s start s.cells.size cell (pos + s.nodeLength cell)
      if holdsToken s cell then return onward s cell pos
      else
        match ← swallow s stop (s.cells.size + 1) cell 1 pos with
        | none => return onward s cell pos
        | some (covered, reach) =>
          let fragment ← slice p.text pos reach
          let before ← minus start pos
          let length ← minus stop start
          p.replace c s cell pos fragment before length covered

/-- Looks for a pattern at a cell, which starts at `pos`. -/
def turn (c : Candidate) (s : TokenStream) (cell pos : Nat) (reach : Option Nat) : Outcome Turn :=
  if reach.any (· ≤ pos) || byteLength p.text < s.len.toNat then pure .finish
  else
    match s.value? cell with
    | none => pure (onward s cell pos)
    | some (.token _) => pure (onward s cell pos)
    | some (.text fragment) =>
      match c.pattern.mode with
      | .fragment => p.inFragment c s cell pos fragment
      | .input => p.inInput c s cell pos

/-- Applies a pattern from a cell on. `again` scans from behind a cell on with the patterns before
    this one. To come to no end in the given number of steps is a trap. -/
def scan (c : Candidate)
    (again : TokenStream → Nat → Nat → Option Nat → Outcome (TokenStream × Option Nat)) :
    Nat → TokenStream → Nat → Nat → Option Nat → Outcome (TokenStream × Option Nat)
  | 0, s, cell, _, reach => if cell = tail then pure (s, reach) else trap .lost
  | fuel + 1, s, cell, pos, reach =>
    if cell = tail then pure (s, reach)
    else do
      visit ⟨s, cell, pos⟩
      match ← p.turn c s cell pos reach with
      | .finish => return (s, reach)
      | .pass cell pos => scan c again fuel s cell pos reach
      | .make new pos high covered s =>
        if 1 < covered then
          let (t, raised) ← again s (s.prev new) pos (some high)
          scan c again fuel t (t.next new) (pos + t.nodeLength new)
            (raise (raised.getD 0) (raise high reach))
        else scan c again fuel s (s.next new) (pos + s.nodeLength new) (raise high reach)

/-- Applies the first `i` patterns, one after the other, each from behind `start` on. -/
def passes : Nat → TokenStream → Nat → Nat → Option Nat → Outcome (TokenStream × Option Nat)
  | 0, s, _, _, reach => pure (s, reach)
  | i + 1, s, start, pos, reach => do
    let (t, raised) ← passes i s start pos reach
    match p.rules[i]? with
    | none => return (t, raised)
    | some c => p.scan c (passes i) (byteLength p.text + 2) t (t.next start) pos raised

/-- The nodes of a level. -/
def run : Outcome (List Node) := do
  let (s, _) ← p.passes p.rules.size (Splice.opening p.text) head 0 none
  return s.toList

end Pass

/-- Tokenizes a text with a grammar, at most `depth` levels deep. -/
def nested (s : Store) : Nat → GrammarId → List Char → Outcome (List Node)
  | 0, _, _ => trap (.fault .endless)
  | depth + 1, grammar, text =>
    Pass.run ⟨text, candidates (s.effectiveRules grammar), nested s depth⟩

end Checked

end Tokenizer

/-- The token tree that a grammar makes of a text, with checks. -/
def Store.checked (s : Store) (text : String) (grammar : GrammarId) :
    Tokenizer.Checked.Outcome (List Node) :=
  Tokenizer.Checked.nested s (Tokenizer.depthFor s text.utf8ByteSize) grammar text.toList

namespace Tokenizer

namespace Checked

open TokenStream Outcome

/-! ### Outcomes and results -/

/-- The outcome is the result `r`, without any trap but a fault, and the offsets were in step at
    every place on the way. -/
structure Outcome.Gives {α : Type} (o : Outcome α) (r : Except Fault α) : Prop where
  result_eq : o.result = r.mapError .fault
  heads : ∀ head ∈ o.heads, head.InStep

namespace Outcome.Gives

variable {α β : Type} {o : Outcome α} {f : α → Outcome β} {a : α} {r : Except Fault β}

theorem pure (a : α) : (Pure.pure a : Outcome α).Gives (.ok a) :=
  ⟨rfl, by simp [Pure.pure]⟩

theorem fault (e : Fault) : (trap (.fault e) : Outcome α).Gives (.error e) :=
  ⟨rfl, by simp [trap]⟩

theorem visit {h : Head} (hstep : h.InStep) : (Outcome.visit h).Gives (.ok ()) :=
  ⟨rfl, by simpa [Outcome.visit] using hstep⟩

/-- A step that succeeds is followed by the others. -/
theorem bind (h : o.Gives (.ok a)) (hf : (f a).Gives r) : (o >>= f).Gives r := by
  have heq : o >>= f = ⟨(f a).result, o.heads ++ (f a).heads⟩ := by
    change Outcome.bind o f = _
    rw [Outcome.bind, h.result_eq]
    rfl
  rw [heq]
  refine ⟨hf.result_eq, ?_⟩
  intro head hhead
  rcases List.mem_append.1 hhead with hhead | hhead
  · exact h.heads head hhead
  · exact hf.heads head hhead

/-- A step that fails ends the computation. -/
theorem bind_error {e : Fault} (h : o.Gives (.error e)) (f : α → Outcome β) :
    (o >>= f).Gives (.error e) := by
  have heq : o >>= f = ⟨.error (.fault e), o.heads⟩ := by
    change Outcome.bind o f = _
    rw [Outcome.bind, h.result_eq]
    rfl
  rw [heq]
  exact ⟨rfl, h.heads⟩

end Outcome.Gives

/-! ### What the checks come to -/

theorem pure_bind {α β : Type} (a : α) (f : α → Outcome β) : (pure a >>= f) = f a :=
  rfl

theorem minus_add (a b : Nat) : minus (a + b) b = pure a := by
  rw [minus, if_pos (Nat.le_add_left b a), Nat.add_sub_cancel]

theorem splitBytes?_append (us vs : List Char) :
    splitBytes? (byteLength us) (us ++ vs) = some (us, vs) := by
  induction us with
  | nil => cases vs <;> simp [splitBytes?]
  | cons c us ih =>
    have hpos := c.utf8Size_pos
    rw [List.cons_append, splitBytes?, byteLength_cons, if_neg (by omega), if_neg (by omega),
      Nat.add_sub_cancel_left, ih]
    rfl

/-- A text is cut where one of its parts begins and ends. -/
theorem slice_append (us vs ws : List Char) {start stop : Nat} (hstart : start = byteLength us)
    (hstop : stop = start + byteLength vs) : slice (us ++ (vs ++ ws)) start stop = pure vs := by
  subst hstop hstart
  rw [slice, if_pos (Nat.le_add_right _ _), splitBytes?_append]
  dsimp only
  rw [Nat.add_sub_cancel_left, splitBytes?_append]

/-- The three parts of a text around a match are cut where the match starts and ends. -/
theorem slice_parts (us vs ws : List Char) :
    slice (us ++ (vs ++ ws)) 0 (byteLength us) = pure us ∧
      slice (us ++ (vs ++ ws)) (byteLength us) (byteLength us + byteLength vs) = pure vs ∧
      slice (us ++ (vs ++ ws)) (byteLength us + byteLength vs) (byteLength (us ++ (vs ++ ws))) =
        pure ws := by
  have hfirst := slice_append [] us (vs ++ ws) rfl (Nat.zero_add _).symm
  have hbytes : byteLength (us ++ (vs ++ ws)) = byteLength us + byteLength vs + byteLength ws := by
    rw [byteLength_append, byteLength_append, Nat.add_assoc]
  have hlast := slice_append (us ++ vs) ws [] (byteLength_append _ _).symm hbytes
  rw [List.nil_append, byteLength_nil] at hfirst
  rw [List.append_nil, List.append_assoc] at hlast
  exact ⟨hfirst, slice_append us vs ws rfl rfl, hlast⟩

/-- A cursor is known by its text and its offset. -/
theorem at?_offset {here : Cursor} {cs : List Char} (htext : here.text = cs) :
    Cursor.at? cs here.offset = some here := by
  subst htext
  have hsplit : splitBytes? here.offset here.text = some (here.before.reverse, here.after) := by
    rw [here.offset_eq, Cursor.text, splitBytes?_append]
  unfold Cursor.at?
  split
  · rename_i hnone
    rw [hsplit] at hnone
    simp at hnone
  · rename_i cut hcut
    rw [hsplit, Option.some.injEq] at hcut
    subst hcut
    congr 1
    exact Cursor.eq_of_offset (by simp [Cursor.text]) rfl

theorem findAt_gives {p : Pattern} {here : Cursor} {cs : List Char} (htext : here.text = cs) :
    (findAt p cs here.offset).Gives (p.find here) := by
  rw [findAt, at?_offset htext]
  dsimp only
  cases p.find here with
  | error e => exact .fault e
  | ok found => exact .pure found

variable {s : TokenStream} {front back : List Entry} {cell : Nat} {node : Node}

theorem nodeLength_of_holds (h : s.Holds (front ++ (cell, node) :: back)) :
    s.nodeLength cell = node.length := by
  have hvalue := h.value (cell, node) (List.mem_append_right _ List.mem_cons_self)
  rw [nodeLength, hvalue]
  rfl

/-- A search through the cells comes to the first node that is not passed. -/
theorem locate_firstOf {goal offset pos fuel : Nat} {passed others : List Node} {first : Node}
    (h : s.Holds (front ++ back))
    (hpass : passUpTo goal (valuesOf back) offset = (passed, first :: others, pos))
    (hfuel : back.length ≤ fuel) :
    locate s goal fuel (firstOf back) (offset + s.nodeLength (firstOf back)) =
      pure (firstOf (back.drop passed.length), pos) := by
  induction back generalizing front offset passed fuel with
  | nil => simp [passUpTo] at hpass
  | cons entry back ih =>
    obtain ⟨cell, node⟩ := entry
    cases fuel with
    | zero => simp at hfuel
    | succ fuel =>
      rw [valuesOf_cons, passUpTo] at hpass
      dsimp only at hpass
      rw [firstOf_cons, locate, nodeLength_of_holds h]
      dsimp only
      by_cases hle : offset + node.length ≤ goal
      · rw [if_pos hle] at hpass ⊢
        generalize hmore : passUpTo goal (valuesOf back) (offset + node.length) = more at hpass
        obtain ⟨passed', rest, pos'⟩ := more
        simp only [Prod.mk.injEq] at hpass
        obtain ⟨rfl, rfl, rfl⟩ := hpass
        have hback : back ≠ [] := by
          rintro rfl
          simp [passUpTo] at hmore
        have hnext := Splice.next_token h
        rw [List.append_cons] at h
        rw [hnext, if_neg (Splice.firstOf_ne_tail h hback), List.length_cons, List.drop_succ_cons]
        exact ih h hmore (Nat.le_of_succ_le_succ hfuel)
      · rw [if_neg hle] at hpass ⊢
        simp only [Prod.mk.injEq] at hpass
        obtain ⟨rfl, -, rfl⟩ := hpass
        rw [minus_add]
        rfl

/-- The cells that are counted are those of the nodes that are covered. -/
theorem swallow_firstOf {goal offset count fuel : Nat} (h : s.Holds (front ++ back))
    (hfuel : back.length < fuel) :
    swallow s goal fuel (firstOf back) (count + 1) offset =
      pure ((coverUpTo goal (valuesOf back) offset).map fun cover =>
        (count + cover.1, cover.2.2)) := by
  induction back generalizing front offset count fuel with
  | nil =>
    cases fuel with
    | zero => simp at hfuel
    | succ fuel =>
      rw [firstOf_nil, swallow, if_neg (by simp), minus_add]
      rfl
  | cons entry back ih =>
    obtain ⟨cell, node⟩ := entry
    cases fuel with
    | zero => simp at hfuel
    | succ fuel =>
      have hvalue := h.value (cell, node) (List.mem_append_right _ List.mem_cons_self)
      have hcell : cell ≠ tail := Splice.firstOf_ne_tail h (List.cons_ne_nil _ _)
      have hlength := nodeLength_of_holds h
      have hnext := Splice.next_token h
      rw [List.append_cons] at h
      dsimp only at hvalue
      rw [firstOf_cons, valuesOf_cons, swallow, coverUpTo, hlength, hnext, holdsText, holdsToken,
        hvalue]
      dsimp only [Option.any_some]
      by_cases hcover : (offset < goal || !node.isToken) = true
      · have hgo : offset < goal ∨ (!node.isToken) = true := by
          simpa using hcover
        rw [if_pos ⟨hcell, hgo⟩, if_pos hcover]
        by_cases hsplit : (node.isToken && goal < offset + node.length) = true
        · have hsplit' : node.isToken = true ∧ goal < offset + node.length := by
            simpa using hsplit
          rw [if_pos hsplit', if_pos hsplit]
          rfl
        · have hsplit' : ¬ (node.isToken = true ∧ goal < offset + node.length) := by
            simpa using hsplit
          rw [if_neg hsplit', if_neg hsplit, ih h (Nat.lt_of_succ_lt_succ hfuel), Option.map_map]
          congr 1
          apply congrFun
          apply congrArg
          funext cover
          simp only [Function.comp_apply, Prod.mk.injEq, and_true]
          omega
      · have hgo : ¬ (cell ≠ tail ∧ (offset < goal ∨ (!node.isToken) = true)) := by
          rintro ⟨-, hgo⟩
          exact hcover (by simpa using hgo)
        rw [if_neg hgo, if_neg hcover, minus_add]
        rfl

/-- A removal behind the head or a linked cell takes no more values than there are. -/
theorem remove_lastOf (h : s.Holds (front ++ back)) (hsize : (front ++ back).length < UInt64.size)
    (count : Nat) :
    remove s (lastOf front) count = pure (s.removeAfter (lastOf front) count).2 := by
  have hremoved := h.removed_eq count
  have hle : (s.removeAfter (lastOf front) count).1 ≤ s.len.toNat := by
    rw [hremoved, h.toNat_len hsize, List.length_append]
    omega
  unfold remove
  dsimp only
  rw [minus, if_pos hle]
  rfl

end Checked

end Tokenizer

end SyntaxHue
