import SyntaxHue.Proofs.Tokenizer.History

/-!
# Runs of a level

The changes of a run lead from the raw text to the nodes that the run returns, whatever is
scanned again on the way. A run that fails does so because a search or an inner grammar fails.
-/

namespace SyntaxHue

namespace Tokenizer

namespace Level

variable {l : Level} {text : List Char} {c : Candidate} {left : List Node} {f : Frame}

/-- What can make a level fail: a search of one of its patterns, or the inner grammar of one on a
    text that the pattern finds. -/
def Fails (l : Level) (text : List Char) (e : Fault) : Prop :=
  ∃ c ∈ l.rules, Blames c.pattern e ∨ ∃ g offset matched, c.pattern.inside = some g ∧
    c.pattern.FoundAt text offset matched ∧ l.inner g matched = .error e

/-- What a scan with `left` before it leads to, from the stream `first` on. `done` are the nodes at
    the end of `left` that belong to the scan. -/
inductive Traced (l : Level) (text : List Char) (first left done : List Node) :
    Except Fault Frame → List Change → Prop where
  | ok {g : Frame} {ys : List Node} {log : List Change} : g.nodes = done.reverse ++ ys →
      Linked l text first log (left ++ ys) → g.count = (left ++ ys).length →
      Traced l text first left done (.ok g) log
  | error {e : Fault} {last : List Node} {log : List Change} : l.Fails text e →
      Linked l text first log last → Traced l text first left done (.error e) log

namespace Traced

variable {first mid done : List Node} {r : Except Fault Frame} {log more : List Change}

/-- Nodes that a scan has passed belong to what it returns. -/
theorem push (h : l.Traced text first (left ++ mid) (mid.reverse ++ done) r log) :
    l.Traced text first left done r log := by
  cases h with
  | ok hnodes hlinked hcount =>
    rw [List.append_assoc] at hlinked hcount
    exact ok (by simpa using hnodes) hlinked hcount
  | error hfails hlinked => exact error hfails hlinked

/-- The token of a hit and what is before it belong to what the scan returns. -/
theorem pushHit {h : Hit} {token : Node}
    (htraced : l.Traced text first (left ++ h.passed ++ raw h.before ++ [token])
      (token :: ((raw h.before).reverse ++ h.passed.reverse ++ done)) r log) :
    l.Traced text first left done r log := by
  have hpassed : l.Traced text first (left ++ (h.passed ++ raw h.before ++ [token]))
      ((h.passed ++ raw h.before ++ [token]).reverse ++ done) r log := by
    simpa only [List.append_assoc, List.reverse_append, List.reverse_cons, List.reverse_nil,
      List.nil_append, List.cons_append] using htraced
  exact push hpassed

theorem after (hlog : Linked l text first log mid) (h : l.Traced text mid left done r more) :
    l.Traced text first left done r (log ++ more) := by
  cases h with
  | ok hnodes hlinked hcount => exact ok hnodes (hlog.append hlinked) hcount
  | error hfails hlinked => exact error hfails (hlog.append hlinked)

theorem cons {d : Change} (hd : d.Sound l text) (h : l.Traced text d.new left done r log) :
    l.Traced text d.old left done r (d :: log) :=
  after (.cons hd .nil) h

end Traced

/-- A frame that a scan has left is a frame that the next pattern can start from. -/
theorem Traced.at {g : Frame} {log : List Change} (hat : l.At text left f)
    (h : l.Traced text (left ++ f.nodes) left [] (.ok g) log) :
    l.At text left { g with here := f.here } ∧
      Linked l text (left ++ f.nodes) log (left ++ g.nodes) := by
  cases h with
  | ok hnodes hlinked hcount =>
    simp only [List.reverse_nil, List.nil_append] at hnodes
    subst hnodes
    exact ⟨⟨hat.text_eq, hat.offset_eq, hlinked.covers hat.covers, hcount⟩, hlinked⟩

/-- A scan keeps the nodes that it has passed. -/
theorem exists_of_scan {again : Frame → Except Fault Frame} {n : Nat} {done : List Node} {g : Frame}
    (h : l.scan c again n done f = .ok g) : ∃ ys, g.nodes = done.reverse ++ ys := by
  induction n generalizing done f with
  | zero =>
    cases h
    exact ⟨_, rfl⟩
  | succ n ih =>
    rw [scan_succ] at h
    split at h
    · simp at h
    · cases h
      exact ⟨_, rfl⟩
    · obtain ⟨ys, hys⟩ := ih h
      exact ⟨_, by rw [hys, List.reverse_append, List.append_assoc]⟩
    · simp only at h
      split at h
      · split at h
        · simp at h
        · obtain ⟨ys, hys⟩ := ih h
          exact ⟨_, by rw [hys, List.reverse_cons, List.reverse_append, List.append_assoc,
            List.append_assoc]⟩
      · obtain ⟨ys, hys⟩ := ih h
        exact ⟨_, by rw [hys, List.reverse_cons, List.reverse_append, List.append_assoc,
          List.append_assoc]⟩

theorem step_token {t : Token} {more : List Node} (hnodes : f.nodes = .token t :: more) :
    l.step c f = .ok .finish ∨ ∃ g, l.step c f = .ok (.pass [.token t] g) := by
  unfold step
  rw [hnodes]
  dsimp only
  split
  · exact Or.inl rfl
  · exact Or.inr ⟨_, rfl⟩

/-- A token that a frame starts with stays where it is. -/
theorem head_of_scan {again : Frame → Except Fault Frame} {n : Nat} {g : Frame} {t : Token}
    {more : List Node} (h : l.scan c again n [] f = .ok g) (hnodes : f.nodes = .token t :: more) :
    ∃ rest, g.nodes = .token t :: rest := by
  cases n with
  | zero =>
    cases h
    exact ⟨more, by simp [hnodes]⟩
  | succ n =>
    rw [scan_succ] at h
    rcases step_token (l := l) (c := c) hnodes with hstep | ⟨f', hstep⟩
    · rw [hstep] at h
      cases h
      exact ⟨more, by simp [hnodes]⟩
    · rw [hstep] at h
      exact exists_of_scan h

theorem head_of_passes {i : Nat} {g : Frame} {t : Token} {more : List Node}
    (h : l.passes i f = .ok g) (hnodes : f.nodes = .token t :: more) :
    ∃ rest, g.nodes = .token t :: rest := by
  induction i generalizing g with
  | zero =>
    cases h
    exact ⟨more, hnodes⟩
  | succ i ih =>
    rw [passes_succ] at h
    split at h
    · simp at h
    · rename_i mid hmid
      obtain ⟨rest, hrest⟩ := ih hmid
      split at h
      · cases h
        exact ⟨rest, hrest⟩
      · split at h
        · simp at h
        · rename_i hlast
          cases h
          obtain ⟨rest, hrest⟩ := head_of_scan hlast hrest
          exact ⟨rest, hrest⟩

variable {h : Hit} {gone : List Node} {token : Node}

theorem At.behind (hat : l.At text left f) (hc : c ∈ l.rules)
    (hfits : h.Fits c.pattern f.nodes f.here gone) (htoken : l.token c h.matched = .ok token) :
    l.At text (left ++ h.passed ++ raw h.before ++ [token]) (f.behind h) :=
  hat.behindToken hfits htoken (hat.again hc hfits htoken).covers
    (hat.again hc hfits htoken).count_eq

/-- What is behind the token of a hit stands for the rest of the text, also when it has been
    scanned again. -/
theorem At.resume (hat : l.At text left f) (hc : c ∈ l.rules)
    (hfits : h.Fits c.pattern f.nodes f.here gone) (htoken : l.token c h.matched = .ok token)
    {sub : Frame} {log : List Change}
    (hhead : ∀ t more, (f.again h token).nodes = .token t :: more →
      ∃ rest, sub.nodes = .token t :: rest)
    (htraced : l.Traced text (left ++ h.passed ++ raw h.before ++ (f.again h token).nodes)
      (left ++ h.passed ++ raw h.before) [] (.ok sub) log) :
    l.At text (left ++ h.passed ++ raw h.before ++ [token]) (f.resume h sub) ∧
      Linked l text (left ++ h.passed ++ raw h.before ++ (f.again h token).nodes) log
        (left ++ h.passed ++ raw h.before ++ [token] ++ (f.resume h sub).nodes) := by
  have hsub := hat.again hc hfits htoken
  obtain ⟨hatSub, hlinked⟩ := htraced.at hsub
  obtain ⟨content, rfl, -⟩ := exists_of_token htoken
  obtain ⟨more, hmore⟩ := hhead _ _ rfl
  have hcovers := hatSub.covers
  have hcount := hatSub.count_eq
  dsimp only at hcovers hcount
  rw [hmore] at hlinked hcovers hcount
  have hnodes : (f.resume h sub).nodes = more := by simp [Frame.resume, hmore]
  refine ⟨?_, ?_⟩
  · have hframe : f.resume h sub = ⟨more, h.stop, sub.count, (f.resume h sub).reach⟩ := by
      simp [Frame.resume, hmore]
    rw [hframe]
    exact hat.behindToken hfits htoken hcovers hcount
  · rw [hnodes, List.append_assoc _ [_] more]
    exact hlinked

variable {again : Frame → Except Fault Frame} {changes : List Node → Frame → List Change}

theorem scan_traced (hc : c ∈ l.rules)
    (hagain : ∀ left f, l.At text left f →
      l.Traced text (left ++ f.nodes) left [] (again f) (changes left f))
    (hhead : ∀ f g t more, again f = .ok g → f.nodes = .token t :: more →
      ∃ rest, g.nodes = .token t :: rest)
    (n : Nat) (done : List Node) (hat : l.At text left f) :
    l.Traced text (left ++ f.nodes) left done (l.scan c again n done f)
      (l.scanChanges c again changes n left f) := by
  induction n generalizing left done f with
  | zero => exact .ok rfl .nil hat.count_eq
  | succ n ih =>
    have hstep := hat.stepped c
    rw [scan_succ, scanChanges]
    generalize l.step c f = r at hstep ⊢
    cases hstep with
    | finish => exact .ok rfl .nil hat.count_eq
    | search hblames => exact .error ⟨c, hc, Or.inl hblames⟩ .nil
    | inner hfits hinside hinner =>
      have hfound := hfits.found
      rw [hat.text_eq] at hfound
      exact .error ⟨c, hc, Or.inr ⟨_, _, _, hinside, hfound, hinner⟩⟩ .nil
    | pass hnodes _ hg =>
      rw [hnodes, ← List.append_assoc]
      exact (ih _ hg).push
    | @make h gone token hfits htoken =>
      have hsound := hat.sound_ofHit hc hfits htoken
      have hsub := hat.again hc hfits htoken
      have hnew : (Change.ofHit c left f h token).new =
          left ++ h.passed ++ raw h.before ++ (f.again h token).nodes := by
        simp [Change.new, Change.ofHit, Frame.again]
      have hold : (Change.ofHit c left f h token).old = left ++ f.nodes := At.ofHit_old hfits
      rw [← hold]
      refine Traced.cons hsound ?_
      rw [hnew]
      dsimp only
      by_cases hcovered : 1 < h.covered
      · rw [if_pos hcovered, if_pos hcovered]
        have htraced := hagain _ _ hsub
        generalize hr : again (f.again h token) = r at htraced ⊢
        cases r with
        | error e =>
          rw [List.append_nil]
          cases htraced with
          | error hfails hlinked => exact .error hfails hlinked
        | ok sub =>
          obtain ⟨hresume, hlinked⟩ :=
            hat.resume hc hfits htoken (fun t more => hhead _ _ t more hr) htraced
          exact Traced.after hlinked (ih _ hresume).pushHit
      · rw [if_neg hcovered, if_neg hcovered]
        have hbehind := (ih (token :: ((raw h.before).reverse ++ h.passed.reverse ++ done))
          (hat.behind hc hfits htoken)).pushHit
        rwa [List.append_assoc _ [token]] at hbehind

theorem here_of_passes {i : Nat} {g : Frame} (h : l.passes i f = .ok g) : g.here = f.here := by
  induction i generalizing g with
  | zero =>
    cases h
    rfl
  | succ i ih =>
    rw [passes_succ] at h
    split at h
    · simp at h
    · rename_i hmid
      split at h
      · cases h
        exact ih hmid
      · split at h
        · simp at h
        · cases h
          dsimp only
          exact ih hmid

theorem passes_traced (i : Nat) (hat : l.At text left f) :
    l.Traced text (left ++ f.nodes) left [] (l.passes i f) (l.passesChanges i left f) := by
  induction i generalizing left f with
  | zero => exact .ok rfl .nil hat.count_eq
  | succ i ih =>
    have hmid := ih hat
    rw [passes_succ, passesChanges]
    generalize hpasses : l.passes i f = r at hmid ⊢
    cases r with
    | error e => simpa using hmid
    | ok mid =>
      obtain ⟨hatMid, hlinked⟩ := hmid.at hat
      rw [← here_of_passes hpasses] at hatMid
      dsimp only
      cases hc : l.rules[i]? with
      | none => simpa using hmid
      | some c =>
        have hscan := scan_traced (Array.mem_of_getElem? hc) (fun left f hat => ih hat)
          (fun f g t more => head_of_passes) (l.bytes + 2) [] hatMid
        refine Traced.after hlinked ?_
        dsimp only at hscan ⊢
        generalize l.scan c (l.passes i) (l.bytes + 2) [] mid = r at hscan ⊢
        cases hscan with
        | error hfails hlinked => exact .error hfails hlinked
        | ok hnodes hlinked hcount => exact .ok hnodes hlinked hcount

theorem At.opening (l : Level) (text : List Char) :
    l.At text [] ⟨opening text, Cursor.start text, 1, none⟩ := by
  refine ⟨Cursor.text_start text, rfl, ?_, rfl⟩
  have hcovers : Covers (l.Made text) 0 ((String.ofList text).toList ++ [])
      [.text (String.ofList text)] := .text .nil
  rwa [String.toList_ofList, List.append_nil] at hcovers

theorem run_eq : l.run text =
    (l.passes l.rules.size ⟨opening text, Cursor.start text, 1, none⟩).map Frame.nodes := by
  unfold run opening
  cases l.passes l.rules.size ⟨[.text (String.ofList text)], Cursor.start text, 1, none⟩ with
  | error e => rfl
  | ok g => rfl

/-- The changes of a run are sound, and lead to the nodes that it returns. -/
theorem linked_of_run {nodes : List Node} (h : l.run text = .ok nodes) :
    Linked l text (opening text) (l.changes text) nodes := by
  have htraced := passes_traced l.rules.size (At.opening l text)
  unfold changes
  rw [run_eq] at h
  generalize l.passes l.rules.size ⟨opening text, Cursor.start text, 1, none⟩ = r at h htraced
  cases r with
  | error e => simp [Except.map] at h
  | ok g =>
    cases h
    exact (htraced.at (At.opening l text)).2

/-- The changes of a run are sound, whether it fails or not. -/
theorem exists_linked (l : Level) (text : List Char) :
    ∃ last, Linked l text (opening text) (l.changes text) last := by
  have htraced := passes_traced l.rules.size (At.opening l text)
  unfold changes
  generalize l.passes l.rules.size ⟨opening text, Cursor.start text, 1, none⟩ = r at htraced
  cases htraced with
  | ok _ hlinked _ => exact ⟨_, hlinked⟩
  | error _ hlinked => exact ⟨_, hlinked⟩

theorem fails_of_run {e : Fault} (h : l.run text = .error e) : l.Fails text e := by
  have htraced := passes_traced l.rules.size (At.opening l text)
  rw [run_eq] at h
  generalize l.passes l.rules.size ⟨opening text, Cursor.start text, 1, none⟩ = r at h htraced
  cases htraced with
  | ok => simp [Except.map] at h
  | error hfails => cases h; exact hfails

/-- The nodes that a run returns stand for its text. -/
theorem covers_of_run {nodes : List Node} (h : l.run text = .ok nodes) :
    Covers (l.Made text) 0 text nodes :=
  (linked_of_run h).covers (At.opening l text).covers

end Level

end Tokenizer

end SyntaxHue
