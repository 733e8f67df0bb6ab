import SyntaxHue.Proofs.Tokenizer.Invariant
import SyntaxHue.Proofs.Tokenizer.Moments
import SyntaxHue.Proofs.Tokenizer.Split

/-!
# The guard against runaway patterns

A scan goes no further once its level has more nodes than its text has bytes. Since a match adds two
nodes at most, no level ever has more than two nodes beyond that, however many empty matches there
are. Without empty matches no node is empty, so that there are never more nodes than bytes: then the
guard is silent, and a level comes to the same with any higher limit.
-/

namespace SyntaxHue

open Tokenizer

namespace Pattern

/-- The pattern finds no empty text in `text`: from no place of it on if it looks at all of it, and
    else in no fragment of it that has some text. -/
def TakesIn (p : Pattern) (text : List Char) : Prop :=
  match p.mode with
  | .input => ∀ here m, here.text = text → p.find here = .ok (some m) → m.span.chars ≠ []
  | .fragment => ∀ fragment m, fragment <:+: text → fragment ≠ [] →
      p.find (Cursor.start fragment) = .ok (some m) → m.span.chars ≠ []

/-- A tame pattern finds no empty text if its outline shows that every match has some. -/
theorem takesIn_of_takes {p : Pattern} (h : p.tame = true) (htakes : p.takes = true)
    (text : List Char) : p.TakesIn text := by
  unfold TakesIn
  split
  · intro here m _ hfind
    exact ne_nil_of_find h htakes hfind
  · intro fragment m _ _ hfind
    exact ne_nil_of_find h htakes hfind

end Pattern

namespace Tokenizer

variable {l : Level} {text : List Char} {m : Making}

/-! ### What a match adds -/

theorem Making.Sound.length_new_le (h : m.Sound l text) : m.change.new.length ≤ l.bytes + 2 := by
  obtain ⟨gone, hfits⟩ := h.exists_fits
  obtain ⟨s, behind, rfl⟩ := hfits.exists_text
  have hold := h.length_old_le
  have hbefore := Splice.length_raw_le m.hit.before
  have hafter := Splice.length_raw_le m.hit.after
  have hnew : m.change.new = m.left ++ m.hit.passed ++ (raw m.hit.before ++ m.token ::
      (raw m.hit.after ++ m.hit.rest)) := by
    simp [change, Change.ofHit, Change.new]
  rw [h.old_eq, hfits.nodes_eq] at hold
  rw [hnew]
  simp only [List.length_append, List.length_cons] at hold ⊢
  omega

/-- In the history of a level, and in what its run returns, there are never more than two nodes
    beyond its bytes. -/
theorem length_le_of_history (l : Level) (text : List Char) :
    (∀ nodes ∈ l.history text, nodes.length ≤ l.bytes + 2) ∧
      ∀ nodes, l.run text = .ok nodes → nodes.length ≤ l.bytes + 2 := by
  have hopening : (Level.opening text).length ≤ l.bytes + 2 := by
    simp [Level.opening]
  exact Level.holds_in_history hopening fun m hm _ => hm.length_new_le

namespace Splice

open TokenStream

/-- A stream with at most `n` nodes. -/
def Short (n : Nat) (s : TokenStream) : Prop :=
  s.toList.length ≤ n

/-- A call that makes a stream with at most `n` nodes of such a stream. -/
def ShortEdit (n : Nat) (call : TokenStream × Edit) : Prop :=
  Short n call.1 ∧ Short n (call.2.apply call.1).2

/-- There were never more than `n` nodes on the bench. -/
structure Bench.Brief (n : Nat) (b : Bench) : Prop where
  stream : Short n b.stream
  edits : ∀ call ∈ b.edits, ShortEdit n call

namespace Bench.Brief

variable {n : Nat} {b : Bench}

theorem call (h : b.Brief n) {edit : Edit} (hnew : Short n (b.call edit).2.stream) :
    (b.call edit).2.Brief n := by
  refine ⟨hnew, ?_⟩
  intro call hcall
  rcases List.mem_append.1 hcall with hcall | hcall
  · exact h.edits call hcall
  · rw [List.mem_singleton.1 hcall]
    exact ⟨h.stream, hnew⟩

theorem put (h : b.Brief n) {cell : Nat} {cs : List Char}
    (hnew : Short n (b.put cell cs).2.stream) : (b.put cell cs).2.Brief n := by
  unfold Bench.put at hnew ⊢
  by_cases hcs : cs.isEmpty = true
  · rwa [if_pos hcs]
  · rw [if_neg hcs] at hnew ⊢
    exact h.call hnew

end Bench.Brief

variable {s : TokenStream} {front back : List Entry} {here : Cursor} {c : Candidate}

theorem Bench.Works.short {n : Nat} {b : Bench} {entries : List Entry} (h : b.Works s front entries)
    (hlength : entries.length ≤ n) : Short n b.stream := by
  rwa [Short, h.holds.toList_eq, length_valuesOf]

/-- Where the nodes can be counted in 64 bits, a match in a stream with no more nodes than bytes
    makes it longer by two nodes at most. It does so one call after the other. -/
theorem replace_brief (hsize : l.bytes + 3 < UInt64.size) {hit : Hit} {gone : List Node}
    (h : Strikes l text c s front back here hit gone) (hs : Short (l.bytes + 2) s) :
    (replace l c s (firstOf back) hit).All (Short (l.bytes + 2)) (ShortEdit (l.bytes + 2)) := by
  have hlen := h.len_le
  obtain ⟨u, behind, rfl⟩ := h.fits.exists_text
  obtain ⟨mid, old, rest, rfl, -, hold, -, hcovered, hplace, hprev⟩ :=
    exists_cut h.stands.holds h.fits
  -- the nodes are counted right, so that there are no more of them than bytes
  have hcount : (front ++ mid ++ (old ++ rest)).length ≤ l.bytes := by
    rw [Short, hplace.toList_eq, length_valuesOf] at hs
    have hlen' := hplace.toNat_len (by omega)
    omega
  have hpos : 0 < old.length := by
    rw [← length_valuesOf, hold]
    exact Nat.succ_pos _
  have hstart : Bench.Works s front (front ++ mid ++ (old ++ rest)) ⟨s, []⟩ := .start hplace
  have hstart' : Bench.Brief (l.bytes + 2) ⟨s, []⟩ := ⟨hs, by simp⟩
  obtain ⟨pre, hpre, hfront, hput⟩ := hstart.put hit.before
  have hpreLength := length_raw_le hit.before
  rw [← hpre, length_valuesOf] at hpreLength
  simp only [List.length_append] at hcount
  have hput' := hstart'.put (hput.short (by simp only [List.length_append]; omega))
  have hremove := hput.remove
  have hremove' := hput'.call (hremove.short (by simp only [List.length_append]; omega))
  rw [replace, hprev]
  dsimp only
  rw [hfront, hcovered]
  generalize (Bench.call _ (.remove _ old.length)).2 = b at hremove hremove' ⊢
  cases htoken : l.token c hit.matched with
  | error e => exact hremove'.edits
  | ok token =>
    obtain ⟨new, hnew, hinsert⟩ := hremove.insert token
    have hinsert' := hremove'.call
      (hinsert.short (by simp only [List.length_append, List.length_singleton]; omega))
    have hlast : lastOf (front ++ (mid ++ pre ++ [(new, token)])) = new := by
      rw [← List.append_assoc, lastOf_concat]
    obtain ⟨post, hpost, -, hdone⟩ := hinsert.put hit.after
    have hpostLength := length_raw_le hit.after
    rw [← hpost, length_valuesOf] at hpostLength
    have hdone' := hinsert'.put
      (hdone.short (by simp only [List.length_append, List.length_singleton]; omega))
    rw [hlast] at hdone'
    dsimp only
    rw [hnew]
    exact ⟨hdone'.stream, hdone'.edits⟩

/-- The turns of a level never bring more than two nodes beyond its bytes. -/
theorem keeping_brief (l : Level) (text : List Char) (hsize : l.bytes + 3 < UInt64.size) :
    Keeping (Short (l.bytes + 2)) (ShortEdit (l.bytes + 2)) l text := by
  apply keeping_of_replace
  intro c _ s front back here hit gone h hs
  exact replace_brief hsize h hs

theorem short_opening (n : Nat) (text : List Char) : Short (n + 2) (opening text) := by
  have hempty : empty.Holds ([] ++ []) := holds_empty
  have hopening := hempty.insertAfter (.text (String.ofList text))
  rw [Short, opening]
  rw [lastOf_nil] at hopening
  rw [hopening.toList_eq]
  simp

/-- At every moment of a run there are at most two nodes more than bytes. -/
theorem run_brief (l : Level) (text : List Char) (hsize : l.bytes + 3 < UInt64.size) :
    (run l text).log.All (Short (l.bytes + 2)) (ShortEdit (l.bytes + 2)) :=
  (run_all (keeping_brief l text hsize) (short_opening l.bytes text)).log

end Splice

/-! ### A limit that is never reached -/

/-- The patterns of a level find no empty texts in `text`. -/
def Level.Takes (l : Level) (text : List Char) : Prop :=
  ∀ c ∈ l.rules, c.pattern.TakesIn text

namespace Level

variable {c : Candidate} {left done : List Node} {f : Frame} {limit : Nat}

/-- Where no node is empty the pattern is looked for in a fragment that is not empty either. -/
theorem At.ne_nil_of_look (hat : l.At text left f) (htakes : c.pattern.TakesIn text)
    (hsolid : Solid (left ++ f.nodes)) {u : String} {more : List Node}
    (hnodes : f.nodes = .text u :: more) {h : Hit}
    (hlook : look c.pattern u more f.here = .ok (.hit h)) : h.matched ≠ [] := by
  have hcovers := hat.covers_nodes
  rw [hnodes] at hcovers hsolid
  unfold Pattern.TakesIn at htakes
  cases hmode : c.pattern.mode with
  | input =>
    rw [look, hmode] at hlook
    rw [hmode] at htakes
    obtain ⟨found, -, -, hfind, hmatched, -⟩ := of_lookInInput hlook
    rw [hmatched]
    exact htakes f.here found hat.text_eq hfind
  | fragment =>
    rw [look, hmode] at hlook
    rw [hmode] at htakes
    obtain ⟨⟨found, hfind, hmatched⟩, -⟩ := of_lookInFragment hlook
    obtain ⟨ds, hafter, -⟩ := hcovers.exists_of_text
    have hpart : u.toList <:+: text := by
      refine ⟨f.here.before.reverse, ds, ?_⟩
      rw [← hat.text_eq, Cursor.text, hafter, List.append_assoc]
    have hfull : u.toList ≠ [] := by
      intro hnil
      have hpos : 0 < u.utf8ByteSize := by
        simp only [solid_append, solid_cons, Node.length_text] at hsolid
        exact hsolid.2.1
      rw [← byteLength_toList, hnil, byteLength_nil] at hpos
      exact Nat.lt_irrefl 0 hpos
    rw [hmatched]
    exact htakes u.toList found hpart hfull hfind

theorem At.ne_nil_of_step (hat : l.At text left f) (htakes : c.pattern.TakesIn text)
    (hsolid : Solid (left ++ f.nodes)) {h : Hit} {token : Node}
    (hstep : l.step c f = .ok (.make h token)) : h.matched ≠ [] := by
  obtain ⟨-, u, more, hnodes, hlook⟩ := of_step_make hstep
  exact hat.ne_nil_of_look htakes hsolid hnodes hlook

/-- In a level without empty matches the changes that are made in a frame leave no empty nodes. -/
theorem solid_of_linked (htakes : l.Takes text) (i : Nat) (hat : l.At text left f)
    {first last : List Node} (h : Linked l text first (l.passesChanges i left f) last)
    (hfirst : Solid first) : Solid last := by
  refine h.holds_last hfirst (keeps_of_makings ?_ i hat)
  intro m hm hold
  obtain ⟨gone, hfits⟩ := hm.exists_fits
  rw [hm.old_eq] at hold
  have hmatched := hm.stands.ne_nil_of_step (htakes _ hm.mem) hold hm.step_eq
  have hnew := solid_make hfits hm.token_eq hmatched hold
  simpa only [Making.change, Change.new, Change.ofHit, Frame.behind, List.append_assoc,
    List.singleton_append] using hnew

/-- A step of a level with no more nodes than bytes is a step with any higher limit. -/
theorem step_raise (hlimit : l.bytes ≤ limit) (hcount : f.count ≤ l.bytes) :
    ({ l with bytes := limit } : Level).step c f = l.step c f := by
  have hlow : ¬ l.bytes < f.count := Nat.not_lt.2 hcount
  have hhigh : ¬ limit < f.count := Nat.not_lt.2 (Nat.le_trans hcount hlimit)
  unfold step
  simp only [hlow, hhigh]
  rfl

theorem scan_raise (hbytes : l.bytes = byteLength text) (htakes : l.Takes text)
    (hlimit : l.bytes ≤ limit) (hc : c ∈ l.rules) {i : Nat} {again' : Frame → Except Fault Frame}
    (hagain : ∀ left f, l.At text left f → Solid (left ++ f.nodes) → again' f = l.passes i f)
    (n : Nat) (done : List Node) (hat : l.At text left f) (hsolid : Solid (left ++ f.nodes)) :
    ({ l with bytes := limit } : Level).scan c again' n done f =
      l.scan c (l.passes i) n done f := by
  induction n generalizing left done f with
  | zero => rfl
  | succ n ih =>
    have hstepped := hat.stepped c
    rw [scan_succ, scan_succ, step_raise hlimit (hat.count_le hbytes hsolid)]
    cases hstep : l.step c f with
    | error e => rfl
    | ok step =>
    rw [hstep] at hstepped
    cases hstepped with
    | finish => rfl
    | @pass passed g hnodes _ hg =>
      rw [hnodes, ← List.append_assoc] at hsolid
      exact ih _ hg hsolid
    | @make h gone token hfits htoken =>
      have hmatched := hat.ne_nil_of_step (htakes c hc) hsolid hstep
      have hmade := solid_make hfits htoken hmatched hsolid
      dsimp only
      by_cases hcovered : 1 < h.covered
      · have hsub := hat.again hc hfits htoken
        have htraced := passes_traced i hsub
        rw [List.append_assoc, List.singleton_append] at hmade
        rw [if_pos hcovered, if_pos hcovered, hagain _ _ hsub hmade]
        cases hr : l.passes i (f.again h token) with
        | error e => rfl
        | ok sub =>
          rw [hr] at htraced
          obtain ⟨hresume, hlinked⟩ :=
            hat.resume hc hfits htoken (fun t more => head_of_passes hr) htraced
          exact ih _ hresume (solid_of_linked htakes i hsub hlinked hmade)
      · rw [if_neg hcovered, if_neg hcovered]
        exact ih _ (hat.behind hc hfits htoken) hmade

theorem passes_raise (hbytes : l.bytes = byteLength text) (htakes : l.Takes text)
    (hlimit : l.bytes ≤ limit) (i : Nat) (hat : l.At text left f)
    (hsolid : Solid (left ++ f.nodes)) :
    ({ l with bytes := limit } : Level).passes i f = l.passes i f := by
  induction i generalizing left f with
  | zero => rfl
  | succ i ih =>
    have htraced := passes_traced i hat
    rw [passes_succ, passes_succ, ih hat hsolid]
    cases hmid : l.passes i f with
    | error e => rfl
    | ok mid =>
      rw [hmid] at htraced
      obtain ⟨hatMid, hlinked⟩ := htraced.at hat
      rw [← here_of_passes hmid] at hatMid
      dsimp only
      cases hc : l.rules[i]? with
      | none => rfl
      | some c =>
        have hmem := Array.mem_of_getElem? hc
        have hscan := scan_raise hbytes htakes hlimit hmem (fun left f hat hsolid => ih hat hsolid)
          (limit + 2) [] hatMid (solid_of_linked htakes i hat hlinked hsolid)
        -- more steps than the level has at its own limit change nothing either
        have hsteps := scan_eq_of_le (i := i) hmem hatMid (Nat.add_le_add_right hlimit 2)
        dsimp only at hscan hsteps ⊢
        rw [hscan, hsteps]

theorem solid_opening (htext : text ≠ []) : Solid (opening text) := by
  rw [opening, solid_cons, Node.length_text, utf8ByteSize_ofList]
  exact ⟨Nat.pos_of_ne_zero fun hzero => htext (byteLength_eq_zero.1 hzero), solid_nil⟩

/-- A level without empty matches comes to the same with any higher limit. -/
theorem run_raise (hbytes : l.bytes = byteLength text) (htakes : l.Takes text) (htext : text ≠ [])
    (hlimit : l.bytes ≤ limit) : ({ l with bytes := limit } : Level).run text = l.run text := by
  rw [run_eq, run_eq]
  congr 1
  exact passes_raise hbytes htakes hlimit l.rules.size (At.opening l text) (solid_opening htext)

end Level

namespace Splice

open TokenStream

variable {s : TokenStream} {front back : List Entry} {here : Cursor} {c : Candidate}

/-- No node of the stream is empty, and neither its nodes nor its counter exceed `n`. -/
structure Roomy (n : Nat) (s : TokenStream) : Prop where
  solid : Solid s.toList
  length_le : s.toList.length ≤ n
  len_le : s.len.toNat ≤ n

theorem Stands.roomy (h : Stands l text s front back here) (hbytes : l.bytes = byteLength text)
    (hsolid : Solid (valuesOf (front ++ back))) : Roomy l.bytes s := by
  have hlength := hsolid.length_le
  rw [h.covers.totalLength_eq, ← hbytes] at hlength
  have hlen : s.len.toNat ≤ (front ++ back).length := by
    rw [h.holds.len_eq, UInt64.toNat_ofNat']
    exact Nat.mod_le _ _
  rw [length_valuesOf] at hlength
  refine ⟨?_, ?_, Nat.le_trans hlen hlength⟩
  · rwa [h.holds.toList_eq]
  · rwa [h.holds.toList_eq, length_valuesOf]

/-- A match that is not empty leaves its stream roomy. -/
theorem replace_roomy (hbytes : l.bytes = byteLength text) (htakes : l.Takes text)
    (hc : c ∈ l.rules) {hit : Hit} {gone : List Node}
    (h : Strikes l text c s front back here hit gone) (hs : Roomy l.bytes s) :
    (replace l c s (firstOf back) hit).All (Roomy l.bytes) fun _ => True := by
  have hturned := turned_replace h.stands hc h.len_le none h.fits
  cases htoken : l.token c hit.matched with
  | error e =>
    rw [htoken] at hturned
    generalize replace l c s (firstOf back) hit = u at hturned ⊢
    cases hturned
    exact fun _ _ => trivial
  | ok token =>
    rw [htoken] at hturned
    generalize replace l c s (firstOf back) hit = u at hturned ⊢
    cases hturned with
    | @make _ new b _ mid rest _ hstands hmid hrest =>
      have hsolid := hs.solid
      have hat := h.stands.at none
      rw [h.stands.holds.toList_eq, valuesOf_append] at hsolid
      obtain ⟨u, more, hnodes, hlook⟩ := h.look_eq
      have hmatched := hat.ne_nil_of_look (htakes c hc) hsolid hnodes hlook
      have hmade := Level.solid_make (f := ⟨valuesOf back, here, 0, none⟩) h.fits htoken hmatched
        hsolid
      refine ⟨hstands.roomy hbytes ?_, fun _ _ => trivial⟩
      rw [valuesOf_append, valuesOf_append, valuesOf_cons, hmid, hrest]
      simpa only [Frame.behind, List.append_assoc, List.singleton_append] using hmade

/-- Wherever a scan of a level without empty matches looks at a cell there is room. -/
theorem run_roomy (hbytes : l.bytes = byteLength text) (htakes : l.Takes text) (htext : text ≠ []) :
    (run l text).log.All (Roomy l.bytes) fun _ => True := by
  obtain ⟨back, hstands, hback⟩ := stands_opening l text
  have hopening : Roomy l.bytes (opening text) := by
    refine hstands.roomy hbytes ?_
    rw [List.nil_append, hback]
    exact Level.solid_opening htext
  refine (run_all (keeping_of_replace ?_) hopening).log
  intro c hc s front back here hit gone h hs
  exact replace_roomy hbytes htakes hc h hs

end Splice

end Tokenizer

namespace Store

variable {s : Store} {grammar : GrammarId} {text : String}

theorem tokenize_eq_run_levelOf :
    s.tokenize text grammar = (s.levelOf grammar text.toList).run text.toList := by
  rw [← tokenize_eq_run, String.ofList_toList]

/-- The run of a level on its stream is the tokenization. -/
theorem values_run_levelOf (hsize : text.utf8ByteSize + 3 < UInt64.size) :
    (Splice.run (s.levelOf grammar text.toList) text.toList).result.map
      (fun left => left.1.toList) = s.tokenize text grammar := by
  rw [tokenize_eq_run_levelOf]
  refine Splice.values_run ?_
  rwa [levelOf, byteLength_toList]

/-- The guard bounds the tree. A level never has more than two nodes beyond the bytes of its text:
    not in its history, not at any moment between the calls that change its stream, and not in the
    tree. -/
theorem length_le_of_guard (s : Store) (grammar : GrammarId) (text : String) :
    (∀ nodes ∈ (s.levelOf grammar text.toList).history text.toList,
        nodes.length ≤ text.utf8ByteSize + 2) ∧
      (text.utf8ByteSize + 3 < UInt64.size →
        (Splice.run (s.levelOf grammar text.toList) text.toList).log.All
            (Splice.Short (text.utf8ByteSize + 2)) (Splice.ShortEdit (text.utf8ByteSize + 2)) ∧
          (Splice.run (s.levelOf grammar text.toList) text.toList).result.map
            (fun left => left.1.toList) = s.tokenize text grammar) ∧
      ∀ nodes, s.tokenize text grammar = .ok nodes →
        ∀ level children, Sublevel text.toList nodes level children →
          children.length ≤ byteLength level + 2 := by
  have hbytes : (s.levelOf grammar text.toList).bytes = text.utf8ByteSize := by
    rw [levelOf, byteLength_toList]
  refine ⟨?_, ?_, ?_⟩
  · rw [← hbytes]
    exact (length_le_of_history _ _).1
  · intro hsize
    have hbrief := Splice.run_brief (s.levelOf grammar text.toList) text.toList (by rwa [hbytes])
    rw [hbytes] at hbrief
    exact ⟨hbrief, values_run_levelOf hsize⟩
  · intro nodes h level children hsub
    obtain ⟨l, hlevel, hrun⟩ := exists_run_of_sublevel h hsub
    rw [← hlevel]
    exact (length_le_of_history l level).2 children hrun

theorem exists_tokenize_bracketed : ∃ nodes, bracketed.tokenize "((a" ⟨0⟩ = .ok nodes := by
  have hok : (bracketed.tokenize "((a" ⟨0⟩).isOk = true := by
    decide +kernel
  cases h : bracketed.tokenize "((a" ⟨0⟩ with
  | error e => simp [h, Except.isOk, Except.toBool] at hok
  | ok nodes => exact ⟨nodes, rfl⟩

theorem length_le_of_guard_bracketed : "((a".utf8ByteSize + 3 < UInt64.size ∧
    ∃ nodes, bracketed.tokenize "((a" ⟨0⟩ = .ok nodes ∧
      (∀ level children, Sublevel "((a".toList nodes level children →
        children.length ≤ byteLength level + 2) ∧
      (Splice.run (bracketed.levelOf ⟨0⟩ "((a".toList) "((a".toList).log.All
        (Splice.Short 5) (Splice.ShortEdit 5) := by
  have hsize : "((a".utf8ByteSize + 3 < UInt64.size := by decide
  obtain ⟨nodes, h⟩ := exists_tokenize_bracketed
  obtain ⟨-, hmoments, htree⟩ := length_le_of_guard bracketed ⟨0⟩ "((a"
  exact ⟨hsize, nodes, h, htree nodes h, (hmoments hsize).1⟩

/-- The guard never stops a grammar whose patterns find no empty texts. Wherever a scan checks it
    there are no more nodes than bytes, in the main pass and in all that is scanned again, and no
    higher limit changes what the text is tokenized to. -/
theorem guard_silent (htext : text ≠ "")
    (htakes : ∀ rule ∈ (s.effectiveRules grammar).entries, ∀ p ∈ rule.2,
      p.TakesIn text.toList) :
    (∀ visit ∈ (Splice.run (s.levelOf grammar text.toList) text.toList).log.visits,
        visit.1.toList.length ≤ text.utf8ByteSize ∧ visit.1.len.toNat ≤ text.utf8ByteSize) ∧
      (text.utf8ByteSize + 3 < UInt64.size →
        (Splice.run (s.levelOf grammar text.toList) text.toList).result.map
          (fun left => left.1.toList) = s.tokenize text grammar) ∧
      ∀ limit, text.utf8ByteSize ≤ limit →
        ({ s.levelOf grammar text.toList with bytes := limit } : Level).run text.toList =
          s.tokenize text grammar := by
  have hbytes : (s.levelOf grammar text.toList).bytes = text.utf8ByteSize := by
    rw [levelOf, byteLength_toList]
  have hnil : text.toList ≠ [] := by
    rwa [ne_eq, String.toList_eq_nil_iff]
  have hlevel : (s.levelOf grammar text.toList).Takes text.toList := by
    intro c hc
    obtain ⟨rule, hrule, -, hp⟩ := mem_candidates.1 hc
    exact htakes rule hrule _ hp
  refine ⟨?_, values_run_levelOf, ?_⟩
  · intro visit hvisit
    have hroomy := (Splice.run_roomy rfl hlevel hnil).visits visit hvisit
    rw [hbytes] at hroomy
    exact ⟨hroomy.length_le, hroomy.len_le⟩
  · intro limit hlimit
    rw [tokenize_eq_run_levelOf]
    exact Level.run_raise rfl hlevel hnil (by rwa [hbytes])

/-- Whether the outlines show that all patterns of a grammar find no empty texts. -/
def alwaysTakes (s : Store) (grammar : GrammarId) : Bool :=
  (candidates (s.effectiveRules grammar)).all fun c => c.pattern.tame && c.pattern.takes

theorem takesIn_of_alwaysTakes (h : s.alwaysTakes grammar = true) (text : List Char) :
    ∀ rule ∈ (s.effectiveRules grammar).entries, ∀ p ∈ rule.2, p.TakesIn text := by
  intro rule hrule p hp
  have hall := Array.all_eq_true'.1 h ⟨rule.1, p⟩ (mem_candidates.2 ⟨rule, hrule, rfl, hp⟩)
  rw [Bool.and_eq_true] at hall
  exact Pattern.takesIn_of_takes hall.1 hall.2 text

theorem alwaysTakes_listings : listings.alwaysTakes ⟨0⟩ = true := by
  decide +kernel

theorem guard_silent_listing : "a (1) 2" ≠ "" ∧
    (∀ rule ∈ (listings.effectiveRules ⟨0⟩).entries, ∀ p ∈ rule.2,
      p.TakesIn "a (1) 2".toList) ∧
    (∀ visit ∈ (Splice.run (listings.levelOf ⟨0⟩ "a (1) 2".toList) "a (1) 2".toList).log.visits,
      visit.1.toList.length ≤ 7 ∧ visit.1.len.toNat ≤ 7) ∧
    ({ listings.levelOf ⟨0⟩ "a (1) 2".toList with bytes := 1000 } : Level).run "a (1) 2".toList =
      listings.tokenize "a (1) 2" ⟨0⟩ := by
  have htext : "a (1) 2" ≠ "" := by decide
  have htakes := takesIn_of_alwaysTakes alwaysTakes_listings "a (1) 2".toList
  obtain ⟨hvisits, -, hraise⟩ := guard_silent htext htakes
  exact ⟨htext, htakes, hvisits, hraise 1000 (by decide)⟩

end Store

end SyntaxHue
