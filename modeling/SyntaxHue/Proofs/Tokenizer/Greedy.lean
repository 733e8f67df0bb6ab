import SyntaxHue.Proofs.Decoding
import SyntaxHue.Proofs.Tokenizer.Reach
import SyntaxHue.Token.Dump

/-!
# Where greedy patterns are like others

A greedy pattern is looked for in the whole input from the place of the scan on, and may cover
tokens; another one is looked for in one fragment, as if that stood alone. For the first pattern of
a grammar there is nothing but one fragment ahead, so it makes no difference if the pattern finds
from every place on what it finds in what follows that place alone. This has to be so wherever the
pattern is applied: a grammar that is inside itself is applied to shorter texts as well, and there
the same pattern may look at where its text begins.
-/

namespace SyntaxHue

open Tokenizer

namespace Pattern

/-- The pattern, looked for in the way of `mode`. -/
def withMode (p : Pattern) (mode : ScanMode) : Pattern :=
  { p with mode := mode }

/-- Where the first match from a place on starts and ends. -/
def ends? (p : Pattern) (here : Cursor) : Except Fault (Option (Nat × Nat)) :=
  (p.find here).map (Option.map fun m => (m.span.start.offset, m.span.stop.offset))

/-- In the text the pattern finds nothing empty, and from every place on it finds what it finds in
    what follows that place, if that stands alone. -/
structure Steady (p : Pattern) (text : List Char) : Prop where
  full : ∀ here m, here.text = text → p.find here = .ok (some m) → m.span.chars ≠ []
  alone : ∀ here, here.text = text → p.ends? here =
    (p.ends? (Cursor.start here.after)).map
      (Option.map fun ends => (here.offset + ends.1, here.offset + ends.2))

variable {p : Pattern} {text : List Char} {here : Cursor}

/-- What a steady pattern finds from a place on, and what it finds in what follows alone. -/
inductive Shifted (here : Cursor) : Except Fault (Option PatternMatch) →
    Except Fault (Option PatternMatch) → Prop where
  | error {e : Fault} : Shifted here (.error e) (.error e)
  | none : Shifted here (.ok .none) (.ok .none)
  | found {m m' : PatternMatch} : m.span.start.offset = here.offset + m'.span.start.offset →
      m.span.stop.offset = here.offset + m'.span.stop.offset →
      Shifted here (.ok (some m)) (.ok (some m'))

theorem Steady.shifted (h : p.Steady text) (hhere : here.text = text) :
    Shifted here (p.find here) (p.find (Cursor.start here.after)) := by
  have halone := h.alone here hhere
  unfold ends? at halone
  generalize p.find here = r at halone ⊢
  generalize p.find (Cursor.start here.after) = r' at halone ⊢
  cases r with
  | error e =>
    cases r' with
    | error e' =>
      cases halone
      exact .error
    | ok found => cases halone
  | ok found =>
    cases r' with
    | error e' => cases halone
    | ok found' =>
      cases found with
      | none =>
        cases found' with
        | none => exact .none
        | some m' => cases halone
      | some m =>
        cases found' with
        | none => cases halone
        | some m' =>
          simp only [Except.map, Option.map_some, Except.ok.injEq, Option.some.injEq,
            Prod.mk.injEq] at halone
          exact .found halone.1 halone.2

end Pattern

/-- A place in what follows `here`, taken alone, is that far on from `here`. -/
theorem Cursor.eq_forward {here c d : Cursor} (hc : c.text = here.text) (hd : d.text = here.after)
    (hoffset : c.offset = here.offset + d.offset) :
    c = here.forward d.offset ∧ c.after = d.after := by
  have hafter : here.after = d.before.reverse ++ d.after := hd.symm
  obtain ⟨htext, hrest, hforward⟩ := Cursor.forward_over hafter
  rw [← d.offset_eq] at htext hrest hforward
  have hcd : c = here.forward d.offset :=
    Cursor.eq_of_offset (hc.trans htext.symm) (hoffset.trans hforward.symm)
  exact ⟨hcd, hcd ▸ hrest⟩

/-- A span of a text, and the same characters as a span of what follows `here`, taken alone. -/
structure Span.Moved (here : Cursor) (s s' : Span) : Prop where
  start_eq : s.start = here.forward s'.start.offset
  stop_eq : s.stop = s.start.forward s'.length
  chars_eq : s.chars = s'.chars
  stop_after : s.stop.after = s'.stop.after
  between : Span.chars ⟨here, s.start⟩ = s'.start.before.reverse

theorem Span.InOrder.moved {here : Cursor} {s s' : Span} (h : s.InOrder here.text)
    (h' : s'.InOrder here.after) (hstart : s.start.offset = here.offset + s'.start.offset)
    (hstop : s.stop.offset = here.offset + s'.stop.offset) : Moved here s s' := by
  obtain ⟨hstartEq, hstartAfter⟩ := Cursor.eq_forward h.start_text h'.start_text hstart
  obtain ⟨-, hstopAfter⟩ := Cursor.eq_forward h.stop_text h'.stop_text hstop
  have hchars : s.chars = s'.chars := by
    have hafter := h.after_eq
    rw [hstartAfter, h'.after_eq, hstopAfter] at hafter
    exact (List.append_cancel_right hafter).symm
  have hstopEq : s.stop = s.start.forward s'.length := by
    obtain ⟨htext, -, hoffset⟩ := Cursor.forward_over h.after_eq
    rw [← h'.byteLength_chars, ← hchars]
    refine Cursor.eq_of_offset ?_ (h.stop_offset.trans hoffset.symm)
    rw [htext, h.stop_text, h.start_text]
  have hbetween : Span.chars ⟨here, s.start⟩ = s'.start.before.reverse := by
    have hfront : Span.InOrder ⟨here, s.start⟩ here.text :=
      ⟨rfl, h.start_text, by dsimp only; omega⟩
    have hafter : here.after = s'.start.before.reverse ++ s'.start.after := h'.start_text.symm
    rw [hfront.after_eq, hstartAfter] at hafter
    exact List.append_cancel_right hafter
  exact ⟨hstartEq, hstopEq, hchars, hstopAfter, hbetween⟩

namespace Tokenizer

variable {p : Pattern} {text : List Char} {here : Cursor}

/-- What comes of looking for a pattern in the whole input and in a fragment, where nothing but the
    fragment is ahead: the same error or hit, or nothing. -/
inductive SameLook (s : String) (text : List Char) : Except Fault Look → Except Fault Look → Prop
    where
  | error {e : Fault} : SameLook s text (.error e) (.error e)
  | nothing {there : Cursor} : SameLook s text (.ok .stop) (.ok (.skip [.text s] [] there))
  | hit {h : Hit} : h.covered = 1 → h.passed = [] → h.rest = [] → h.stop.text = text →
      h.stop.after = h.after → SameLook s text (.ok (.hit h)) (.ok (.hit h))

/-- Of a single fragment nothing is passed up to a place in it, and up to the end of a match all of
    it is covered. -/
theorem passUpTo_text {cs : List Char} {goal offset : Nat} (h : goal < offset + byteLength cs) :
    passUpTo goal [.text (String.ofList cs)] offset =
      ([], [.text (String.ofList cs)], offset) := by
  rw [passUpTo, if_neg]
  rw [Node.length_text, utf8ByteSize_ofList]
  omega

theorem coverUpTo_text (cs : List Char) (goal offset : Nat) :
    coverUpTo goal [.text (String.ofList cs)] offset = some (1, [], offset + byteLength cs) := by
  simp [coverUpTo, Node.isToken, utf8ByteSize_ofList]

/-- Where one fragment is ahead, a steady pattern finds the same in it and in the whole input. -/
theorem sameLook (hsteady : p.Steady text) (hhere : here.text = text) :
    SameLook (String.ofList here.after) text
      (lookInInput p [.text (String.ofList here.after)] here)
      (lookInFragment p (String.ofList here.after) [] here) := by
  have hshifted := hsteady.shifted hhere
  rw [lookInInput, lookInFragment, String.toList_ofList]
  generalize hfind : p.find here = r at hshifted ⊢
  generalize hfind' : p.find (Cursor.start here.after) = r' at hshifted ⊢
  cases hshifted with
  | error => exact .error
  | none => exact .nothing
  | @found m m' hstart hstop =>
    have hm := Pattern.inOrder_of_find hfind
    have hm' := Pattern.inOrder_of_find hfind'
    rw [Cursor.text_start] at hm'
    have hfull : m.span.chars ≠ [] := hsteady.full here m hhere hfind
    have hmoved := hm.moved hm' hstart hstop
    have hrest : m.span.start.after.isEmpty = false := by
      rw [hm.after_eq]
      simp [hfull]
    -- the input ends with the fragment
    have hend : m.span.stop.offset + byteLength m.span.stop.after =
        here.offset + byteLength here.after := by
      rw [Cursor.offset_add_byteLength, hm.stop_text, here.offset_add_byteLength]
    have hlt : m.span.start.offset < here.offset + byteLength here.after := by
      have hmatched : byteLength m.span.chars ≠ 0 := fun hzero => hfull (byteLength_eq_zero.1 hzero)
      have hlength := hm.stop_offset
      omega
    have hbehind : Span.takeBytes (here.offset + byteLength here.after - m.span.stop.offset)
        m.span.stop.after = m.span.stop.after := by
      rw [← hend, Nat.add_sub_cancel_left]
      simpa using Span.takeBytes_append m.span.stop.after []
    have hhere0 : here.forward 0 = here :=
      Cursor.eq_of_offset (here.forward_text 0) (Cursor.forward_over (u := []) rfl).2.2
    simp only [bind, Except.bind, pure, Except.pure, hrest, passUpTo_text hlt, coverUpTo_text,
      Nat.sub_self, hhere0, Node.isToken, hmoved.between, hbehind, Bool.false_eq_true, if_false]
    rw [if_neg (by omega), ← hmoved.start_eq, ← hmoved.stop_eq, ← hmoved.chars_eq,
      ← hmoved.stop_after, utf8ByteSize_ofList]
    exact .hit rfl rfl rfl (hm.stop_text.trans hhere) rfl

namespace Level

variable {l : Level} {kind : String} {others : Array Candidate} {done : List Node} {f : Frame}
  {again again' : Frame → Except Fault Frame} {c : Candidate} {n : Nat}

theorem scan_of_nil (h : f.nodes = []) :
    l.scan c again n done f = .ok { f with nodes := done.reverse } := by
  cases n with
  | zero => rw [scan, h, List.append_nil]
  | succ n =>
    rw [scan]
    simp only [h]

/-- A match in a fragment covers nothing but that fragment. -/
theorem covered_of_fragment {h : Hit} {token : Node} (hmode : c.pattern.mode = .fragment)
    (hstep : l.step c f = .ok (.make h token)) : h.covered = 1 := by
  obtain ⟨-, s, more, -, hlook⟩ := of_step_make hstep
  rw [look, hmode] at hlook
  obtain ⟨-, -, hcovered, -, -⟩ := of_lookInFragment hlook
  exact hcovered

/-- A scan for a pattern that looks at fragments never scans again. -/
theorem scan_of_fragment (hmode : c.pattern.mode = .fragment) :
    l.scan c again n done f = l.scan c again' n done f := by
  induction n generalizing done f with
  | zero => rfl
  | succ n ih =>
    rw [scan_succ, scan_succ]
    cases hstep : l.step c f with
    | error e => rfl
    | ok step =>
      cases step with
      | finish => rfl
      | pass passed g => exact ih
      | make h token =>
        have hcovered := covered_of_fragment hmode hstep
        dsimp only
        rw [if_neg (by omega), if_neg (by omega)]
        exact ih

/-- All that is left of the text at a frame is one fragment. -/
structure Ahead (text : List Char) (f : Frame) : Prop where
  text_eq : f.here.text = text
  nodes_eq : f.nodes = [] ∨ f.nodes = [.text (String.ofList f.here.after)]

/-- A step for a steady pattern as one for the whole input and as one for fragments: they are the
    same and leave one fragment, or both find nothing. -/
inductive SameStep (text : List Char) (f : Frame) :
    Except Fault Step → Except Fault Step → Prop where
  | error {e : Fault} : SameStep text f (.error e) (.error e)
  | finish : SameStep text f (.ok .finish) (.ok .finish)
  | nothing {there : Cursor} : SameStep text f (.ok .finish)
      (.ok (.pass f.nodes { f with nodes := [], here := there }))
  | make {h : Hit} {token : Node} : h.covered = 1 → Ahead text (f.behind h) →
      SameStep text f (.ok (.make h token)) (.ok (.make h token))

theorem sameStep (hsteady : p.Steady text) (hahead : Ahead text f) :
    SameStep text f (l.step ⟨kind, p.withMode .input⟩ f)
      (l.step ⟨kind, p.withMode .fragment⟩ f) := by
  obtain ⟨htext, hnodes⟩ := hahead
  rcases hnodes with hnodes | hnodes
  · rw [step, step, hnodes]
    exact .finish
  · rw [step, step, hnodes]
    dsimp only
    split
    · exact .finish
    · have hlook := sameLook hsteady htext
      have hinput : look (p.withMode .input) (String.ofList f.here.after) [] f.here =
          lookInInput p [.text (String.ofList f.here.after)] f.here := rfl
      have hfragment : look (p.withMode .fragment) (String.ofList f.here.after) [] f.here =
          lookInFragment p (String.ofList f.here.after) [] f.here := rfl
      have htoken : ∀ matched, l.token ⟨kind, p.withMode .input⟩ matched =
          l.token ⟨kind, p.withMode .fragment⟩ matched := fun _ => rfl
      rw [hinput, hfragment]
      generalize lookInInput p _ f.here = r at hlook ⊢
      generalize lookInFragment p _ [] f.here = r' at hlook ⊢
      cases hlook with
      | error => exact .error
      | nothing =>
        dsimp only
        rw [← hnodes]
        exact .nothing
      | @hit h hcovered hpassed hrest hstop hafter =>
        simp only [htoken]
        cases l.token ⟨kind, p.withMode .fragment⟩ h.matched with
        | error e => exact .error
        | ok token =>
          refine .make hcovered ⟨hstop, ?_⟩
          rw [Frame.behind, hrest, List.append_nil, ← hafter, raw]
          split
          · exact Or.inl rfl
          · exact Or.inr rfl

/-- Over one fragment, a scan for a steady pattern comes to the same nodes in both ways. -/
theorem scan_withMode (hsteady : p.Steady text) (hahead : Ahead text f) (place : Cursor) :
    (l.scan ⟨kind, p.withMode .input⟩ again n done f).map (fun g => { g with here := place }) =
      (l.scan ⟨kind, p.withMode .fragment⟩ again' n done f).map
        (fun g => { g with here := place }) := by
  induction n generalizing done f with
  | zero => rfl
  | succ n ih =>
    have hsame : SameStep text f (l.step ⟨kind, p.withMode .input⟩ f)
        (l.step ⟨kind, p.withMode .fragment⟩ f) := sameStep hsteady hahead
    rw [scan_succ, scan_succ]
    generalize l.step ⟨kind, p.withMode .input⟩ f = r at hsame ⊢
    generalize l.step ⟨kind, p.withMode .fragment⟩ f = r' at hsame ⊢
    cases hsame with
    | error => rfl
    | finish => rfl
    | nothing =>
      dsimp only
      rw [scan_of_nil rfl, List.reverse_append, List.reverse_reverse]
      rfl
    | make hcovered hbehind =>
      dsimp only
      rw [if_neg (by omega), if_neg (by omega)]
      exact ih hbehind

/-- The level with a pattern in front of all others, which is looked for in the way of `mode`. -/
def led (l : Level) (kind : String) (p : Pattern) (others : Array Candidate) (mode : ScanMode) :
    Level :=
  { l with rules := #[⟨kind, p.withMode mode⟩] ++ others }

theorem rules_led_zero (mode : ScanMode) :
    (l.led kind p others mode).rules[0]? = some ⟨kind, p.withMode mode⟩ := by
  rw [led, Array.getElem?_append_left (by simp)]
  rfl

theorem rules_led_succ (mode : ScanMode) (i : Nat) :
    (l.led kind p others mode).rules[i + 1]? = others[i]? := by
  rw [led, Array.getElem?_append_right (by simp)]
  rfl

/-- A pass of the level is one of the level that it was made of. -/
theorem passes_led_succ (mode : ScanMode) (i : Nat) :
    (l.led kind p others mode).passes (i + 1) f =
      match (l.led kind p others mode).passes i f with
      | .error e => .error e
      | .ok mid =>
        match (l.led kind p others mode).rules[i]? with
        | none => .ok mid
        | some c =>
          (l.scan c ((l.led kind p others mode).passes i) (l.bytes + 2) [] mid).map
            fun g => { g with here := mid.here } := by
  have hscan : ∀ c again n done g, (l.led kind p others mode).scan c again n done g =
      l.scan c again n done g := fun _ _ _ _ _ => scan_with_rules
  rw [passes_succ]
  cases (l.led kind p others mode).passes i f with
  | error e => rfl
  | ok mid =>
    cases (l.led kind p others mode).rules[i]? with
    | none => rfl
    | some c =>
      simp only [hscan]
      change (match l.scan c _ (l.bytes + 2) [] mid with
        | .error e => .error e
        | .ok g => .ok { g with here := mid.here } : Except Fault Frame) = _
      cases l.scan c _ (l.bytes + 2) [] mid <;> rfl

/-- From the first pattern on, the passes over one fragment are the same in both ways. -/
theorem passes_led (hsteady : p.Steady text) (hothers : ∀ c ∈ others, c.pattern.mode = .fragment)
    (hahead : Ahead text f) (i : Nat) :
    (l.led kind p others .input).passes (i + 1) f =
      (l.led kind p others .fragment).passes (i + 1) f := by
  induction i with
  | zero =>
    rw [passes_led_succ, passes_led_succ, rules_led_zero, rules_led_zero]
    exact scan_withMode hsteady hahead f.here
  | succ i ih =>
    rw [passes_led_succ .input (i + 1), passes_led_succ .fragment (i + 1), ih, rules_led_succ,
      rules_led_succ]
    cases (l.led kind p others .fragment).passes (i + 1) f with
    | error e => rfl
    | ok mid =>
      cases hc : others[i]? with
      | none => rfl
      | some c =>
        have hmode := hothers c (Array.mem_of_getElem? hc)
        dsimp only
        rw [scan_of_fragment hmode]

/-- A level with a steady pattern in front, and for the rest patterns that look at fragments, comes
    to the same in both ways. -/
theorem run_led (hsteady : p.Steady text) (hothers : ∀ c ∈ others, c.pattern.mode = .fragment)
    (mode mode' : ScanMode) :
    (l.led kind p others mode).run text = (l.led kind p others mode').run text := by
  have hahead : Ahead text ⟨opening text, Cursor.start text, 1, none⟩ :=
    ⟨Cursor.text_start text, Or.inr rfl⟩
  have hsize : ∀ mode, (l.led kind p others mode).rules.size = others.size + 1 := by
    intro mode
    rw [led, Array.size_append]
    exact Nat.add_comm _ _
  have hplain : ∀ mode, (l.led kind p others mode).run text =
      (l.led kind p others .fragment).run text := by
    intro mode
    rw [run_eq, run_eq, hsize, hsize]
    cases mode with
    | fragment => rfl
    | input => rw [passes_led hsteady hothers hahead]
  rw [hplain, hplain mode']

end Level

/-- Two lists of patterns that differ at most in the way in which the first one is looked for. If
    they do, it is steady in the text, and the others look at fragments. -/
inductive AlikeOn (text : List Char) : Array Candidate → Array Candidate → Prop where
  | same (rules : Array Candidate) : AlikeOn text rules rules
  | led {kind : String} {p : Pattern} {others : Array Candidate} (mode mode' : ScanMode) :
      p.Steady text → (∀ c ∈ others, c.pattern.mode = .fragment) →
      AlikeOn text (#[⟨kind, p.withMode mode⟩] ++ others) (#[⟨kind, p.withMode mode'⟩] ++ others)

theorem Level.run_of_alikeOn {l : Level} {rules : Array Candidate}
    (h : AlikeOn text l.rules rules) : ({ l with rules } : Level).run text = l.run text := by
  obtain ⟨bytes, own, inner⟩ := l
  cases h with
  | same => rfl
  | @led kind p others mode mode' hsteady hothers =>
    exact (Level.run_led (l := ⟨bytes, #[], inner⟩) hsteady hothers mode mode').symm

end Tokenizer

namespace Store

variable {s t : Store} {grammar other : GrammarId}

/-- The stores tokenize a text alike with two grammars, if their patterns are alike on it and the
    stores tokenize alike all that is handed on. -/
theorem nested_of_alikeOn {text : List Char} {depth : Nat}
    (h : AlikeOn text (candidates (s.effectiveRules grammar)) (candidates (t.effectiveRules other)))
    (hinner : ∀ g matched, s.HandsOn (grammar, text) (g, matched) →
      nested t depth g matched = nested s depth g matched) :
    nested t (depth + 1) other text = nested s (depth + 1) grammar text := by
  -- the level of the first store, with the second store for what is handed on
  let k : Level := { levelAt s depth grammar text with inner := nested t depth }
  rw [nested_succ, nested_succ]
  calc (levelAt t depth other text).run text
      = k.run text := Level.run_of_alikeOn (l := k) h
    _ = (levelAt s depth grammar text).run text := by
      refine (Level.run_congr (l := levelAt s depth grammar text) (k := k) rfl rfl ?_).symm
      intro c hc g offset matched hinside hfound
      exact (hinner g matched (handsOn_of_mem hc hinside hfound)).symm

theorem nested_of_down {text : List Char} (depth : Nat)
    (h : ∀ x level, Relation.ReflTransGen s.HandsOn (grammar, text) (x, level) →
      AlikeOn level (candidates (s.effectiveRules x)) (candidates (t.effectiveRules x))) :
    nested t depth grammar text = nested s depth grammar text := by
  induction depth generalizing grammar text with
  | zero => rfl
  | succ depth ih =>
    refine nested_of_alikeOn (h grammar text .refl) fun g matched hstep => ih ?_
    exact fun x level hreach => h x level (.head hstep hreach)

/-- Enough depth for both stores. -/
theorem tokenize_eq_of_nested_eq {text : String}
    (h : ∀ depth, nested t depth other text.toList = nested s depth grammar text.toList) :
    t.tokenize text other = s.tokenize text grammar := by
  have hbytes : byteLength text.toList ≤ text.utf8ByteSize := Nat.le_of_eq (byteLength_toList text)
  let depth := depthFor s text.utf8ByteSize + depthFor t text.utf8ByteSize
  calc t.tokenize text other
      = nested t (depthFor t text.utf8ByteSize) other text.toList := rfl
    _ = nested t depth other text.toList := by
      rw [← nested_add (lt_depthFor hbytes) (depthFor s text.utf8ByteSize), Nat.add_comm]
    _ = nested s depth grammar text.toList := h depth
    _ = s.tokenize text grammar := nested_add (lt_depthFor hbytes) _

/-- A steady first pattern, with patterns behind it that look at fragments, may be greedy or not:
    the text is tokenized to the same tree, or fails alike. What is handed on has to be tokenized
    with the same patterns in both cases, or with patterns of which this is true as well. -/
theorem tokenize_eq_of_steady {text : String} {kind : String} {p : Pattern}
    {others : Array Candidate}
    (hgreedy : candidates (s.effectiveRules grammar) = #[⟨kind, p.withMode .input⟩] ++ others)
    (hplain : candidates (t.effectiveRules other) = #[⟨kind, p.withMode .fragment⟩] ++ others)
    (hsteady : p.Steady text.toList) (hothers : ∀ c ∈ others, c.pattern.mode = .fragment)
    (hdown : ∀ x level, Relation.TransGen s.HandsOn (grammar, text.toList) (x, level) →
      AlikeOn level (candidates (s.effectiveRules x)) (candidates (t.effectiveRules x))) :
    t.tokenize text other = s.tokenize text grammar := by
  refine tokenize_eq_of_nested_eq fun depth => ?_
  cases depth with
  | zero => rfl
  | succ depth =>
    have halike : AlikeOn text.toList (candidates (s.effectiveRules grammar))
        (candidates (t.effectiveRules other)) := by
      rw [hgreedy, hplain]
      exact .led .input .fragment hsteady hothers
    refine nested_of_alikeOn halike fun g matched hstep => nested_of_down depth ?_
    exact fun x level hreach => hdown x level (.head' hstep hreach)

end Store

/-! ### Two grammars -/

/-- The place behind the first `n` characters of a text. -/
def Cursor.nth (cs : List Char) (n : Nat) : Cursor :=
  ⟨(cs.take n).reverse, cs.drop n, byteLength (cs.take n), by simp⟩

theorem Cursor.exists_nth (here : Cursor) : ∃ n < here.text.length + 1, here = nth here.text n := by
  have hlength : here.text.length = here.before.length + here.after.length := by
    rw [text, List.length_append, List.length_reverse]
  refine ⟨here.before.length, by omega, Cursor.eq_of_offset ?_ ?_⟩
  · simp [nth, text]
  · simp [nth, text, here.offset_eq]

namespace Pattern

/-- Whether the outline of a pattern shows that it finds nothing empty, and at each place of a text
    it finds what it finds in the rest alone. -/
def steadyIn (text : List Char) (p : Pattern) : Bool :=
  p.tame && p.takes && decide (∀ n < text.length + 1, p.ends? (Cursor.nth text n) =
    (p.ends? (Cursor.start (Cursor.nth text n).after)).map
      (Option.map fun ends =>
        ((Cursor.nth text n).offset + ends.1, (Cursor.nth text n).offset + ends.2)))

theorem of_steadyIn {p : Pattern} {text : List Char} (h : p.steadyIn text = true) :
    p.Steady text ∧ ∀ here m, p.find here = .ok (some m) → m.span.chars ≠ [] := by
  simp only [steadyIn, Bool.and_eq_true, decide_eq_true_eq] at h
  obtain ⟨⟨htame, htakes⟩, halone⟩ := h
  have hfull : ∀ here m, p.find here = .ok (some m) → m.span.chars ≠ [] :=
    fun here m hfind => ne_nil_of_find htame htakes hfind
  refine ⟨⟨fun here m _ => hfull here m, ?_⟩, hfull⟩
  · rintro here rfl
    obtain ⟨n, hn, hnth⟩ := here.exists_nth
    rw [hnth]
    simpa [Cursor.nth] using halone n hn

end Pattern

namespace Store

variable {s : Store} {grammar : GrammarId}

/-- A kind that is greedy or not, and one that hands its text on to the language `inner`. -/
def twoKinds (greedy : Bool) (first second inner : String) : GrammarDef :=
  .mk [
    .mk "first" [.mk { source := first, greedy := greedy } .none],
    .mk "second" [.mk { source := second } (.language inner)]] none

/-- The store with one language more, if it can be defined. -/
def adding (s : Store) (language : String) (d : GrammarDef) : Store :=
  match s.define language d with
  | .ok (_, t) => t
  | .error _ => s

variable {language first second inner : String} {r q : Regex} {id : GrammarId}

theorem adding_twoKinds (greedy : Bool) (hfirst : Compiler.regex "first" first = .ok r)
    (hsecond : Compiler.regex "second" second = .ok q)
    (hinner : (s.compilerFor language).resolve inner = some id) :
    s.adding language (twoKinds greedy first second inner) =
      ⟨s.slots ++ #[⟨⟨[
        ("first", [(Compiler.assemble { source := first } r none).withMode
          (if greedy then .input else .fragment)]),
        ("second", [Compiler.assemble { source := second } q (some id)])]⟩, none⟩],
        s.languages.put language ⟨s.slots.size⟩⟩ := by
  have hgrammar : (s.compilerFor language).grammar #[] (twoKinds greedy first second inner) =
      .ok (⟨s.slots.size⟩, #[⟨⟨[
        ("first", [(Compiler.assemble { source := first } r none).withMode
          (if greedy then .input else .fragment)]),
        ("second", [Compiler.assemble { source := second } q (some id)])]⟩, none⟩]) := by
    simp only [twoKinds, Compiler.grammar, Compiler.rules, Compiler.rule, Compiler.patterns,
      Compiler.pattern, Compiler.inside, Compiler.language, Compiler.rest, hfirst, hsecond, hinner,
      bind, Except.bind, pure, Except.pure]
    rfl
  rw [adding, define, hgrammar]
  rfl

/-- The patterns of such a grammar, where it is in a store. -/
theorem candidates_twoKinds {p p' : Pattern}
    (h : s.slots[grammar.index]? = some ⟨⟨[("first", [p]), ("second", [p'])]⟩, none⟩) :
    candidates (s.effectiveRules grammar) = #[⟨"first", p⟩] ++ #[⟨"second", p'⟩] := by
  rw [effectiveRules, grammar?, h]
  rfl

/-- Pairs of letters, and in a pair the first letter, as long as no letters follow but one at
    most. -/
def paired (greedy : Bool) : Store :=
  empty.adding "pairs" (twoKinds greedy "^\\w(?=\\w?$)" "\\w\\w" "pairs")

/-- What has to be known of the compiled pattern of a kind `first`. -/
def steadySource (source : String) (text : List Char) (r : Regex) : Bool :=
  (Compiler.assemble { source } r none).steadyIn text

/-- Greedy or not makes a difference for a grammar that is inside itself, although the first
    pattern finds nothing in the text, from no place and in no rest of it. In the pair of letters
    it finds the letter in front, and in what is left of the pair, if that stands alone, the
    other one as well. -/
theorem tokenize_ne_paired : ∃ (p : Pattern) (others : Array Candidate),
    candidates ((paired true).effectiveRules ⟨0⟩) = #[⟨"first", p.withMode .input⟩] ++ others ∧
    candidates ((paired false).effectiveRules ⟨0⟩) =
      #[⟨"first", p.withMode .fragment⟩] ++ others ∧
    (p.Steady "(ab)".toList ∧ ∀ here m, p.find here = .ok (some m) → m.span.chars ≠ []) ∧
    (∀ c ∈ others, c.pattern.mode = .fragment) ∧
    (paired true).tokenize "(ab)" ⟨0⟩ ≠ (paired false).tokenize "(ab)" ⟨0⟩ := by
  obtain ⟨r, hr, hsteady⟩ : ∃ r, Compiler.regex "first" "^\\w(?=\\w?$)" = .ok r ∧
      steadySource "^\\w(?=\\w?$)" "(ab)".toList r := Compiler.exists_regex (by decide +kernel)
  obtain ⟨q, hq⟩ : ∃ q, Compiler.regex "second" "\\w\\w" = .ok q :=
    Compiler.exists_regex_of_isOk (by decide +kernel)
  have hpaired : ∀ greedy, paired greedy = _ := fun greedy =>
    adding_twoKinds greedy hr hq rfl
  refine ⟨Compiler.assemble { source := "^\\w(?=\\w?$)" } r none, #[⟨"second",
    Compiler.assemble { source := "\\w\\w" } q (some ⟨0⟩)⟩], ?_, ?_,
    Pattern.of_steadyIn hsteady, by simp [Compiler.assemble], ?_⟩
  · refine candidates_twoKinds ?_
    rw [hpaired]
    rfl
  · refine candidates_twoKinds ?_
    rw [hpaired]
    rfl
  · have hdump : ((paired true).tokenize "(ab)" ⟨0⟩).map dump ≠
        ((paired false).tokenize "(ab)" ⟨0⟩).map dump := by decide +kernel
    exact fun heq => hdump (congrArg _ heq)

/-- Numbers and words, with greedy numbers in slot 1 and others in slot 2. -/
def counted : Store :=
  ((empty.adding "text" .empty).adding "greedy" (twoKinds true "\\d+" "[a-z]+" "text")).adding
    "plain" (twoKinds false "\\d+" "[a-z]+" "text")

theorem tokenize_eq_of_steady_counted : ∃ (p : Pattern) (others : Array Candidate),
    (candidates (counted.effectiveRules ⟨1⟩) = #[⟨"first", p.withMode .input⟩] ++ others ∧
      candidates (counted.effectiveRules ⟨2⟩) = #[⟨"first", p.withMode .fragment⟩] ++ others ∧
      p.Steady "ab 12 c".toList ∧ (∀ c ∈ others, c.pattern.mode = .fragment) ∧
      ∀ x level, Relation.TransGen counted.HandsOn (⟨1⟩, "ab 12 c".toList) (x, level) →
        AlikeOn level (candidates (counted.effectiveRules x))
          (candidates (counted.effectiveRules x))) ∧
    counted.tokenize "ab 12 c" ⟨2⟩ = counted.tokenize "ab 12 c" ⟨1⟩ := by
  obtain ⟨r, hr, hsteady⟩ : ∃ r, Compiler.regex "first" "\\d+" = .ok r ∧
      steadySource "\\d+" "ab 12 c".toList r := Compiler.exists_regex (by decide +kernel)
  obtain ⟨q, hq⟩ : ∃ q, Compiler.regex "second" "[a-z]+" = .ok q :=
    Compiler.exists_regex_of_isOk (by decide +kernel)
  let p := Compiler.assemble { source := "\\d+" } r none
  let others : Array Candidate :=
    #[⟨"second", Compiler.assemble { source := "[a-z]+" } q (some ⟨0⟩)⟩]
  have hgreedy : candidates (counted.effectiveRules ⟨1⟩) =
      #[⟨"first", p.withMode .input⟩] ++ others := by
    refine candidates_twoKinds ?_
    rw [counted, adding_twoKinds true hr hq rfl, adding_twoKinds false hr hq rfl]
    rfl
  have hplain : candidates (counted.effectiveRules ⟨2⟩) =
      #[⟨"first", p.withMode .fragment⟩] ++ others := by
    refine candidates_twoKinds ?_
    rw [counted, adding_twoKinds true hr hq rfl, adding_twoKinds false hr hq rfl]
    rfl
  have hothers : ∀ c ∈ others, c.pattern.mode = .fragment := by simp [others, Compiler.assemble]
  have hp : p.Steady "ab 12 c".toList := (Pattern.of_steadyIn hsteady).1
  have hdown : ∀ x level, Relation.TransGen counted.HandsOn (⟨1⟩, "ab 12 c".toList) (x, level) →
      AlikeOn level (candidates (counted.effectiveRules x))
        (candidates (counted.effectiveRules x)) := fun x level _ => .same _
  exact ⟨p, others, ⟨hgreedy, hplain, hp, hothers, hdown⟩,
    tokenize_eq_of_steady hgreedy hplain hp hothers hdown⟩

end Store

end SyntaxHue
