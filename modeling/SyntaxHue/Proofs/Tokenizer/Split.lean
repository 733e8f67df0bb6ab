import SyntaxHue.Proofs.Tokenizer.Termination

/-!
# Splitting fragment by fragment

A level keeps a place in the text, counts its nodes and looks at what lies behind a match. If its
patterns are looked for in single fragments and find no empty texts, none of that is needed: the
patterns split, one after the other, every fragment that is left, and a fragment is split around
the matches in it from left to right. `Store.splitAll` says so without a place, a count or a
bound, and tokenizing comes to the same.
-/

namespace SyntaxHue

open Tokenizer

namespace Pattern

/-- The pattern finds no empty text in a part of `text` that stands alone. -/
def NeverEmptyIn (p : Pattern) (text : List Char) : Prop :=
  ∀ part m, part <:+: text → p.find (Cursor.start part) = .ok (some m) → m.span.chars ≠ []

end Pattern

namespace Store

variable (s : Store)

/-- The token that a pattern of `kind` makes of a text. -/
def tokenFor (kind : String) (p : Pattern) (matched : List Char) : Except Fault Node :=
  match p.inside with
  | none => .ok (.token ⟨kind, .text (String.ofList matched), p.aliases, byteLength matched⟩)
  | some inner =>
    match s.tokenize (String.ofList matched) inner with
    | .error e => .error e
    | .ok children => .ok (.token ⟨kind, .nested children, p.aliases, byteLength matched⟩)

/-- Splits a fragment around what a pattern finds in it: what comes before the match, its token,
    and what comes behind it, split in turn. Where a match is empty and at the start, nothing more
    is looked for. -/
def splitFragment (kind : String) (p : Pattern) (cs : List Char) : Except Fault (List Node) :=
  match p.find (Cursor.start cs) with
  | .error e => .error e
  | .ok none => .ok [.text (String.ofList cs)]
  | .ok (some m) =>
    match s.tokenFor kind p m.span.chars with
    | .error e => .error e
    | .ok token =>
      let remainder := m.span.stop.after
      if remainder ≠ [] ∧ remainder.length < cs.length then
        match splitFragment kind p remainder with
        | .error e => .error e
        | .ok nodes => .ok (raw m.span.start.before.reverse ++ token :: nodes)
      else .ok (raw m.span.start.before.reverse ++ token :: raw remainder)
termination_by cs.length
decreasing_by
  rename_i h
  exact h.2

/-- Splits all fragments among the nodes and leaves the tokens alone. -/
def splitNodes (kind : String) (p : Pattern) : List Node → Except Fault (List Node)
  | [] => .ok []
  | .token t :: nodes => do
    let others ← splitNodes kind p nodes
    return .token t :: others
  | .text cs :: nodes => do
    let parts ← s.splitFragment kind p cs.toList
    let others ← splitNodes kind p nodes
    return parts ++ others

/-- Splits a text by all patterns of a grammar, one after the other: kind by kind, and the patterns
    of a kind in their order. -/
def splitAll (grammar : GrammarId) (text : String) : Except Fault (List Node) :=
  (s.effectiveRules grammar).entries.foldlM
    (fun nodes rule => rule.2.foldlM (fun nodes p => s.splitNodes rule.1 p nodes) nodes)
    [.text text]

variable {s} {kind : String} {p : Pattern} {cs : List Char}

/-- What is left of a fragment behind a match is shorter than it, unless the match is empty. -/
theorem length_remainder_lt {m : PatternMatch} (hfind : p.find (Cursor.start cs) = .ok (some m))
    (hm : m.span.chars ≠ []) : m.span.stop.after.length < cs.length := by
  have htext := (Pattern.inOrder_of_find hfind).text_eq
  rw [Cursor.text_start] at htext
  have hpos := List.length_pos_iff.2 hm
  rw [htext]
  simp only [List.length_append]
  omega

/-- A fragment with a match that is not empty: what comes before it, its token, and the split of
    what comes behind it. -/
theorem splitFragment_of_find {m : PatternMatch}
    (hfind : p.find (Cursor.start cs) = .ok (some m)) (hm : m.span.chars ≠ []) :
    s.splitFragment kind p cs = (do
      let token ← s.tokenFor kind p m.span.chars
      let others ← s.splitNodes kind p (raw m.span.stop.after)
      return raw m.span.start.before.reverse ++ token :: others) := by
  have hlt := length_remainder_lt hfind hm
  rw [splitFragment, hfind]
  dsimp only
  cases s.tokenFor kind p m.span.chars with
  | error e => rfl
  | ok token =>
    by_cases hnil : m.span.stop.after = []
    · simp [hnil, raw, splitNodes, bind, Except.bind, pure, Except.pure]
    · have hraw : raw m.span.stop.after = [.text (String.ofList m.span.stop.after)] := by
        simp [raw, hnil]
      dsimp only
      rw [if_pos ⟨hnil, hlt⟩, hraw, splitNodes, splitNodes, String.toList_ofList]
      cases s.splitFragment kind p m.span.stop.after with
      | error e => rfl
      | ok parts => simp [bind, Except.bind, pure, Except.pure]

/-- Splitting a list of nodes: its first fragment, and then the others. -/
theorem splitNodes_text_cons {u : String} {nodes : List Node} :
    s.splitNodes kind p (.text u :: nodes) = (do
      let parts ← s.splitFragment kind p u.toList
      let others ← s.splitNodes kind p nodes
      return parts ++ others) := by
  rw [splitNodes]

theorem splitNodes_append {xs ys : List Node} :
    s.splitNodes kind p (xs ++ ys) = (do
      let first ← s.splitNodes kind p xs
      let others ← s.splitNodes kind p ys
      return first ++ others) := by
  induction xs with
  | nil =>
    rw [List.nil_append, splitNodes]
    cases s.splitNodes kind p ys <;> rfl
  | cons node xs ih =>
    cases node with
    | token t =>
      rw [List.cons_append, splitNodes, splitNodes, ih]
      simp only [bind_assoc, pure_bind, List.cons_append]
    | text u =>
      rw [List.cons_append, splitNodes, splitNodes, ih]
      simp only [bind_assoc, pure_bind, List.append_assoc]

/-- A fragment with a match is split, and then what is left of it together with the others. -/
theorem splitNodes_of_find {u : String} {nodes : List Node} {m : PatternMatch}
    (hfind : p.find (Cursor.start u.toList) = .ok (some m)) (hm : m.span.chars ≠ []) :
    s.splitNodes kind p (.text u :: nodes) = (do
      let token ← s.tokenFor kind p m.span.chars
      let others ← s.splitNodes kind p (raw m.span.stop.after ++ nodes)
      return raw m.span.start.before.reverse ++ [token] ++ others) := by
  rw [splitNodes_text_cons, splitFragment_of_find hfind hm, splitNodes_append]
  simp only [bind_assoc, pure_bind, List.append_assoc, List.cons_append, List.nil_append]

end Store

namespace Tokenizer

/-- No node of the stream is empty. -/
def Solid (nodes : List Node) : Prop :=
  ∀ node ∈ nodes, 0 < node.length

@[simp] theorem solid_nil : Solid [] :=
  List.forall_mem_nil _

@[simp] theorem solid_cons {node : Node} {nodes : List Node} :
    Solid (node :: nodes) ↔ 0 < node.length ∧ Solid nodes :=
  List.forall_mem_cons

@[simp] theorem solid_append {xs ys : List Node} : Solid (xs ++ ys) ↔ Solid xs ∧ Solid ys :=
  List.forall_mem_append

theorem solid_raw (cs : List Char) : Solid (raw cs) := by
  unfold raw
  split
  · exact solid_nil
  · rename_i hcs
    have hne : byteLength cs ≠ 0 := by
      intro hzero
      exact hcs (List.isEmpty_iff.2 (byteLength_eq_zero.1 hzero))
    rw [solid_cons, Node.length_text, utf8ByteSize_ofList]
    exact ⟨Nat.pos_of_ne_zero hne, solid_nil⟩

/-- There are no more nodes than bytes if no node is empty. -/
theorem Solid.length_le {nodes : List Node} (h : Solid nodes) :
    nodes.length ≤ totalLength nodes := by
  induction nodes with
  | nil => exact Nat.le_refl _
  | cons node nodes ih =>
    rw [solid_cons] at h
    have hnodes := ih h.2
    rw [List.length_cons, totalLength_cons]
    omega

namespace Level

variable {l : Level} {s : Store} {text : List Char} {c : Candidate} {left done : List Node}
  {f : Frame} {more : List Node}

/-- The number of nodes never stops a scan of a level without empty nodes. -/
theorem At.count_le (hat : l.At text left f) (hbytes : l.bytes = byteLength text)
    (hsolid : Solid (left ++ f.nodes)) : f.count ≤ l.bytes := by
  rw [hat.count_eq, hbytes, ← hat.covers.totalLength_eq]
  exact hsolid.length_le

/-- A fragment of a level is part of its text. -/
theorem At.isInfix {u : String} (hat : l.At text left f) (hnodes : f.nodes = .text u :: more) :
    u.toList <:+: text := by
  have hcovers := hat.covers
  rw [hnodes] at hcovers
  obtain ⟨us, vs, htext, -, hvs⟩ := hcovers.exists_append
  obtain ⟨ds, rfl, -⟩ := hvs.exists_of_text
  exact ⟨us, ds, by rw [htext, List.append_assoc]⟩

/-- A step of a scan, and what splitting makes of the nodes that are left. Both make the same
    nodes, and then the scan goes on where splitting does. -/
inductive InStep (s : Store) (c : Candidate) (f : Frame) :
    Except Fault Step → Except Fault (List Node) → Prop where
  | finish : f.nodes = [] → InStep s c f (.ok .finish) (.ok [])
  | pass {passed : List Node} {g : Frame} : g.reach = none →
      InStep s c f (.ok (.pass passed g)) (do
        let others ← s.splitNodes c.kind c.pattern g.nodes
        return passed ++ others)
  | make {h : Hit} {token : Node} : h.covered = 1 → h.passed = [] → h.matched ≠ [] →
      InStep s c f (.ok (.make h token)) (do
        let others ← s.splitNodes c.kind c.pattern (f.behind h).nodes
        return raw h.before ++ [token] ++ others)
  | error {e : Fault} : InStep s c f (.error e) (.error e)

/-- A pattern that looks at fragments and finds no empty texts keeps step with splitting, outside
    what is scanned again and as long as there are not too many nodes. -/
theorem inStep_step (hmode : c.pattern.mode = .fragment) (hfull : c.pattern.NeverEmptyIn text)
    (htoken : ∀ matched, l.token c matched = s.tokenFor c.kind c.pattern matched)
    (hat : l.At text left f) (hreach : f.reach = none) (hcount : f.count ≤ l.bytes) :
    InStep s c f (l.step c f) (s.splitNodes c.kind c.pattern f.nodes) := by
  have hgo : (f.reach.any (· ≤ f.here.offset) || decide (l.bytes < f.count)) = false := by
    rw [hreach, Option.any_none, Bool.false_or]
    exact decide_eq_false (Nat.not_lt.2 hcount)
  rw [step]
  cases hnodes : f.nodes with
  | nil =>
    rw [Store.splitNodes]
    exact .finish hnodes
  | cons node more =>
  dsimp only
  rw [hgo, if_neg Bool.false_ne_true]
  cases node with
  | token t =>
    rw [Store.splitNodes]
    exact .pass (g := { f with nodes := more, here := f.here.forward t.length }) hreach
  | text u =>
    dsimp only
    rw [look, hmode]
    dsimp only
    rw [lookInFragment]
    cases hfind : c.pattern.find (Cursor.start u.toList) with
    | error e =>
      rw [Store.splitNodes_text_cons, Store.splitFragment, hfind]
      exact .error
    | ok found =>
    cases found with
    | none =>
      rw [Store.splitNodes_text_cons, Store.splitFragment, hfind]
      dsimp only
      rw [String.ofList_toList]
      exact .pass (g := { f with nodes := more, here := f.here.forward u.utf8ByteSize }) hreach
    | some m =>
      have hm : m.span.chars ≠ [] := hfull _ m (hat.isInfix hnodes) hfind
      rw [Store.splitNodes_of_find hfind hm]
      simp only [bind, Except.bind, pure, Except.pure, htoken]
      cases s.tokenFor c.kind c.pattern m.span.chars with
      | error e => exact .error
      | ok token => exact .make rfl rfl hm

/-- What a scan leaves behind the nodes `done` is what splitting makes of them. -/
inductive Agrees (done : List Node) :
    Except Fault Frame → Except Fault (List Node) → Prop where
  | ok {g : Frame} {ys : List Node} : g.nodes = done.reverse ++ ys → g.reach = none → Solid ys →
      Agrees done (.ok g) (.ok ys)
  | error {e : Fault} : Agrees done (.error e) (.error e)

/-- Nodes that a scan has passed come before what splitting makes of the others. -/
theorem Agrees.push {passed : List Node} {r : Except Fault Frame} {q : Except Fault (List Node)}
    (h : Agrees (passed.reverse ++ done) r q) (hsolid : Solid passed) :
    Agrees done r (do
      let others ← q
      return passed ++ others) := by
  cases h with
  | error => exact .error
  | ok hnodes hreach hys =>
    refine .ok ?_ hreach (solid_append.2 ⟨hsolid, hys⟩)
    rw [hnodes, List.reverse_append, List.reverse_reverse, List.append_assoc]

variable {h : Hit} {gone : List Node} {token : Node}

/-- Behind the token of a match that is not empty there is less left. -/
theorem totalLength_behind_lt (hfits : h.Fits c.pattern f.nodes f.here gone)
    (hm : h.matched ≠ []) : totalLength (f.behind h).nodes < totalLength f.nodes := by
  have hlength := hfits.gone_length
  have hmatched : byteLength h.matched ≠ 0 := fun hzero => hm (byteLength_eq_zero.1 hzero)
  rw [hfits.nodes_eq, Frame.behind]
  simp only [totalLength_append, totalLength_raw, byteLength_append] at hlength ⊢
  omega

/-- A match that is not empty leaves no empty nodes. -/
theorem solid_make (hfits : h.Fits c.pattern f.nodes f.here gone)
    (htoken : l.token c h.matched = .ok token) (hm : h.matched ≠ [])
    (hsolid : Solid (left ++ f.nodes)) :
    Solid (left ++ h.passed ++ raw h.before ++ [token] ++ (f.behind h).nodes) := by
  have hpos : 0 < token.length := by
    obtain ⟨content, rfl, -⟩ := exists_of_token htoken
    exact Nat.pos_of_ne_zero fun hzero => hm (byteLength_eq_zero.1 hzero)
  rw [hfits.nodes_eq] at hsolid
  simp only [solid_append, Frame.behind] at hsolid ⊢
  obtain ⟨hleft, hpassed, -, hrest⟩ := hsolid
  exact ⟨⟨⟨⟨hleft, hpassed⟩, solid_raw _⟩, solid_cons.2 ⟨hpos, solid_nil⟩⟩, solid_raw _, hrest⟩

/-- A scan for a pattern that looks at fragments and finds no empty texts splits the nodes from
    its place on. The text that is left gets shorter with every step. -/
theorem agrees_scan {again : Frame → Except Fault Frame} {n : Nat} (hc : c ∈ l.rules)
    (hmode : c.pattern.mode = .fragment) (hfull : c.pattern.NeverEmptyIn text)
    (hbytes : l.bytes = byteLength text)
    (htoken : ∀ matched, l.token c matched = s.tokenFor c.kind c.pattern matched)
    (hat : l.At text left f) (hreach : f.reach = none) (hsolid : Solid (left ++ f.nodes))
    (hn : totalLength f.nodes < n) :
    Agrees done (l.scan c again n done f) (s.splitNodes c.kind c.pattern f.nodes) := by
  induction n generalizing left done f with
  | zero => omega
  | succ n ih =>
    have hcount := hat.count_le hbytes hsolid
    have hinStep := inStep_step hmode hfull htoken hat hreach hcount
    have hstepped := hat.stepped c
    rw [scan_succ]
    generalize l.step c f = r at hinStep hstepped ⊢
    generalize s.splitNodes c.kind c.pattern f.nodes = q at hinStep ⊢
    cases hinStep with
    | finish hnodes => exact .ok (by rw [hnodes]) hreach solid_nil
    | error => exact .error
    | @pass passed g hgreach =>
      cases hstepped with
      | pass hnodes hpassed hatg =>
        rw [hnodes, ← List.append_assoc] at hsolid
        have hshorter : totalLength g.nodes < n := by
          have hpos : passed.length ≤ totalLength passed :=
            (solid_append.1 (solid_append.1 hsolid).1).2.length_le
          have hlength := List.length_pos_iff.2 hpassed
          rw [hnodes, totalLength_append] at hn
          omega
        have hpush := (solid_append.1 (solid_append.1 hsolid).1).2
        exact (ih hatg hgreach hsolid hshorter).push hpush
    | @make h token hcovered hpassed hm =>
      cases hstepped with
      | make hfits htok =>
        have hsolid' := solid_make hfits htok hm hsolid
        have hshorter := totalLength_behind_lt hfits hm
        have hreach' : (f.behind h).reach = none := by
          rw [Frame.behind, hreach]
          rfl
        have hfront : Solid (raw h.before ++ [token]) := by
          simp only [solid_append] at hsolid' ⊢
          exact ⟨solid_raw _, hsolid'.1.2⟩
        have hdone : token :: ((raw h.before).reverse ++ h.passed.reverse ++ done) =
            (raw h.before ++ [token]).reverse ++ done := by
          rw [hpassed]
          simp
        dsimp only
        rw [if_neg (by omega), hdone]
        exact (ih (hat.behind hc hfits htok) hreach' hsolid' (by omega)).push hfront

/-- Applying patterns one after the other from the start of a level on. -/
theorem agrees_passes (hmode : ∀ c ∈ l.rules, c.pattern.mode = .fragment)
    (hfull : ∀ c ∈ l.rules, c.pattern.NeverEmptyIn text) (hbytes : l.bytes = byteLength text)
    (htoken : ∀ c matched, l.token c matched = s.tokenFor c.kind c.pattern matched)
    (hat : l.At text [] f) (hreach : f.reach = none) (hsolid : Solid f.nodes) (i : Nat) :
    Agrees [] (l.passes i f) ((l.rules.toList.take i).foldlM
      (fun nodes c => s.splitNodes c.kind c.pattern nodes) f.nodes) := by
  induction i with
  | zero => exact .ok rfl hreach hsolid
  | succ i ih =>
    rw [passes_succ, List.take_add_one, List.foldlM_append, Array.getElem?_toList]
    have htraced := passes_traced i hat
    generalize hpasses : l.passes i f = r at ih htraced ⊢
    generalize (l.rules.toList.take i).foldlM
      (fun nodes c => s.splitNodes c.kind c.pattern nodes) f.nodes = q at ih ⊢
    cases ih with
    | error => exact .error
    | @ok mid ys hnodes hmidreach hmidsolid =>
      cases hc : l.rules[i]? with
      | none => exact .ok hnodes hmidreach hmidsolid
      | some c =>
        have hmem := Array.mem_of_getElem? hc
        obtain ⟨hatMid, -⟩ := htraced.at hat
        rw [← here_of_passes hpasses] at hatMid
        rw [List.reverse_nil, List.nil_append] at hnodes
        have hagrees : Agrees [] (l.scan c (l.passes i) (l.bytes + 2) [] mid)
            (s.splitNodes c.kind c.pattern mid.nodes) := by
          refine agrees_scan hmem (hmode c hmem) (hfull c hmem) hbytes (htoken c) hatMid hmidreach
            ?_ ?_
          · rwa [List.nil_append, hnodes]
          · have hlength := hatMid.covers.totalLength_eq
            rw [List.nil_append] at hlength
            dsimp only at hlength
            omega
        rw [hnodes] at hagrees
        simp only [Option.toList_some, List.foldlM_cons, List.foldlM_nil, bind_pure]
        change Agrees [] _ (s.splitNodes c.kind c.pattern ys)
        generalize s.splitNodes c.kind c.pattern ys = q at hagrees ⊢
        generalize l.scan c (l.passes i) (l.bytes + 2) [] mid = r at hagrees ⊢
        cases hagrees with
        | error => exact .error
        | ok hnodes hreach hsolid => exact .ok hnodes hreach hsolid

theorem Agrees.map_nodes {r : Except Fault Frame} {q : Except Fault (List Node)}
    (h : Agrees [] r q) : r.map Frame.nodes = q := by
  cases h with
  | error => rfl
  | ok hnodes => simpa [Except.map] using hnodes

end Level

/-- Applying the candidates of a grammar is applying its patterns kind by kind. -/
theorem foldlM_candidates {α : Type} {rules : Table Rule}
    {g : α → String → Pattern → Except Fault α} {x : α} :
    (candidates rules).toList.foldlM (fun y c => g y c.kind c.pattern) x =
      rules.entries.foldlM (fun y rule => rule.2.foldlM (fun z p => g z rule.1 p) y) x := by
  unfold candidates
  dsimp only
  induction rules.entries generalizing x with
  | nil => rfl
  | cons rule entries ih =>
    rw [List.flatMap_cons, List.foldlM_append, List.foldlM_cons, List.foldlM_map]
    simp only [ih]

end Tokenizer

namespace Store

variable {s : Store} {grammar : GrammarId} {text : List Char}

theorem token_levelOf (c : Candidate) (matched : List Char) :
    (s.levelOf grammar text).token c matched = s.tokenFor c.kind c.pattern matched := by
  rw [Level.token_eq, tokenFor]
  rfl

/-- With patterns that look at fragments and find no empty texts, tokenizing is splitting the text
    by all of them, one after the other. -/
theorem tokenize_eq_splitAll {text : String} (htext : text ≠ "")
    (hmode : ∀ rule ∈ (s.effectiveRules grammar).entries, ∀ p ∈ rule.2, p.mode = .fragment)
    (hfull : ∀ rule ∈ (s.effectiveRules grammar).entries, ∀ p ∈ rule.2,
      p.NeverEmptyIn text.toList) :
    s.tokenize text grammar = s.splitAll grammar text := by
  let l := s.levelOf grammar text.toList
  have hrules : ∀ c ∈ l.rules, c.pattern.mode = .fragment ∧ c.pattern.NeverEmptyIn text.toList := by
    intro c hc
    obtain ⟨rule, hrule, -, hp⟩ := mem_candidates.1 hc
    exact ⟨hmode rule hrule _ hp, hfull rule hrule _ hp⟩
  have hsolid : Solid (Level.opening text.toList) := by
    rw [Level.opening, String.ofList_toList, solid_cons, Node.length_text]
    refine ⟨Nat.pos_of_ne_zero fun hzero => htext ?_, solid_nil⟩
    rw [← String.toList_eq_nil_iff, ← byteLength_eq_zero, byteLength_toList, hzero]
  have hagrees := Level.agrees_passes (fun c hc => (hrules c hc).1) (fun c hc => (hrules c hc).2) rfl
    token_levelOf (Level.At.opening l text.toList) rfl hsolid l.rules.size
  have hall : l.rules.toList.take l.rules.size = l.rules.toList :=
    List.take_of_length_le (by simp)
  have htokenize : s.tokenize text grammar = l.run text.toList := by
    rw [← tokenize_eq_run, String.ofList_toList]
  rw [htokenize, Level.run_eq, hagrees.map_nodes, hall, splitAll]
  dsimp only [l, levelOf]
  rw [foldlM_candidates (g := fun nodes kind p => s.splitNodes kind p nodes), Level.opening]
  rw [String.ofList_toList]

/-- Whether the outlines show that a grammar has only patterns that look at fragments and find no
    empty texts. -/
def onlySplits (s : Store) (grammar : GrammarId) : Bool :=
  (candidates (s.effectiveRules grammar)).all fun c =>
    decide (c.pattern.mode = .fragment) && c.pattern.tame && c.pattern.takes

theorem of_onlySplits (h : s.onlySplits grammar = true) {rule : String × Rule} {p : Pattern}
    (hrule : rule ∈ (s.effectiveRules grammar).entries) (hp : p ∈ rule.2) :
    p.mode = .fragment ∧ ∀ text, p.NeverEmptyIn text := by
  have hall := Array.all_eq_true'.1 h ⟨rule.1, p⟩ (mem_candidates.2 ⟨rule, hrule, rfl, hp⟩)
  simp only [Bool.and_eq_true, decide_eq_true_eq] at hall
  exact ⟨hall.1.1, fun _ _ _ _ hfind => Pattern.ne_nil_of_find hall.1.2 hall.2 hfind⟩

/-- A grammar of sums, in which groups have their brackets as tokens inside. -/
def sums : GrammarDef :=
  .ofRules [
    .mk "group" [.mk { source := "\\([^)]*\\)" }
      (.grammar (.ofRules [.mk "bracket" [.plain "[()]"]] none))],
    .mk "number" [.plain "\\d+"],
    .mk "sign" [.plain "[+-]", .plain "="]] none

/-- The store with the grammar `sums`. -/
def summed : Store :=
  match empty.define "sums" sums with
  | .ok (_, s) => s
  | .error _ => empty

theorem onlySplits_summed : summed.onlySplits ⟨0⟩ = true := by
  decide +kernel

theorem tokenize_eq_splitAll_summed :
    "3=(1+1)+1" ≠ "" ∧
    (∀ rule ∈ (summed.effectiveRules ⟨0⟩).entries, ∀ p ∈ rule.2, p.mode = .fragment) ∧
    (∀ rule ∈ (summed.effectiveRules ⟨0⟩).entries, ∀ p ∈ rule.2,
      p.NeverEmptyIn "3=(1+1)+1".toList) ∧
    summed.tokenize "3=(1+1)+1" ⟨0⟩ = summed.splitAll ⟨0⟩ "3=(1+1)+1" := by
  have htext : "3=(1+1)+1" ≠ "" := by decide
  have hmode : ∀ rule ∈ (summed.effectiveRules ⟨0⟩).entries, ∀ p ∈ rule.2, p.mode = .fragment :=
    fun rule hrule p hp => (of_onlySplits onlySplits_summed hrule hp).1
  have hfull : ∀ rule ∈ (summed.effectiveRules ⟨0⟩).entries, ∀ p ∈ rule.2,
      p.NeverEmptyIn "3=(1+1)+1".toList :=
    fun rule hrule p hp => (of_onlySplits onlySplits_summed hrule hp).2 _
  exact ⟨htext, hmode, hfull, tokenize_eq_splitAll htext hmode hfull⟩

end Store

end SyntaxHue
