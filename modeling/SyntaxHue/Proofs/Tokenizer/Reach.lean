import SyntaxHue.Proofs.Tokenizer.Keep
import SyntaxHue.Proofs.Tokenizer.Termination

/-!
# The reach of what is scanned again

A part of a level that is scanned again has a reach, at which it is not scanned on. The reach is
looked at before a pattern is looked for, so it bounds the place of the scan. For a pattern that
looks at a fragment this bounds the match as well, since the reach is always between two nodes. A
pattern that looks at the whole input finds its match anywhere behind the place of the scan: it may
start at the reach or behind it.
-/

namespace SyntaxHue

namespace Tokenizer

/-- A node of the stream starts at `offset`, or the stream ends there. -/
def IsCut (nodes : List Node) (offset : Nat) : Prop :=
  ∃ before after, nodes = before ++ after ∧ totalLength before = offset

namespace IsCut

variable {node : Node} {xs ys : List Node} {k : Nat}

theorem start (xs : List Node) : IsCut xs 0 :=
  ⟨[], xs, rfl, rfl⟩

theorem behind (h : IsCut ys k) (xs : List Node) : IsCut (xs ++ ys) (totalLength xs + k) := by
  obtain ⟨before, after, rfl, rfl⟩ := h
  exact ⟨xs ++ before, after, by rw [List.append_assoc], totalLength_append xs before⟩

/-- A cut that is not before the end of `xs` is one of what follows. -/
theorem exists_of_le (h : IsCut (xs ++ ys) k) (hle : totalLength xs ≤ k) :
    ∃ j, k = totalLength xs + j ∧ IsCut ys j := by
  obtain ⟨before, after, heq, rfl⟩ := h
  rcases List.append_eq_append_iff.1 heq with ⟨mid, rfl, rfl⟩ | ⟨mid, rfl, rfl⟩
  · exact ⟨totalLength mid, totalLength_append xs mid, mid, after, rfl, rfl⟩
  · -- the cut is in `xs`, so it is at its end
    rw [totalLength_append] at hle ⊢
    exact ⟨0, by omega, start _⟩

/-- Behind the start of a node there is no cut before its end. -/
theorem length_le (h : IsCut (node :: ys) k) (hk : 0 < k) : node.length ≤ k := by
  obtain ⟨before, after, heq, rfl⟩ := h
  cases before with
  | nil => simp at hk
  | cons first before =>
    rw [List.cons_append, List.cons.injEq] at heq
    rw [heq.1, totalLength_cons]
    exact Nat.le_add_right _ _

end IsCut

namespace Change

variable {l : Level} {text : List Char} {d : Change} {k : Nat}

/-- Where the nodes end that the change replaces. -/
def reach (d : Change) : Nat :=
  totalLength d.left + totalLength d.gone

theorem Sound.totalLength_front (hd : d.Sound l text) :
    totalLength (d.left ++ (raw d.before ++ d.token :: raw d.after)) = d.reach := by
  obtain ⟨t, ht, hlength⟩ := hd.exists_token
  rw [reach, hd.gone_length, ht]
  simp only [totalLength_append, totalLength_cons, totalLength_raw, byteLength_append,
    Node.length_token, hlength]

theorem new_eq (d : Change) :
    d.new = (d.left ++ (raw d.before ++ d.token :: raw d.after)) ++ d.right := by
  simp only [new, List.append_assoc, List.cons_append]

theorem Sound.isCut_reach (hd : d.Sound l text) : IsCut d.new d.reach :=
  ⟨_, d.right, d.new_eq, hd.totalLength_front⟩

/-- A change keeps the cuts from the end of what it replaces on. -/
theorem Sound.isCut_new (hd : d.Sound l text) (h : IsCut d.old k) (hle : d.reach ≤ k) :
    IsCut d.new k := by
  rw [old, ← List.append_assoc] at h
  have hlength : totalLength (d.left ++ d.gone) = d.reach := totalLength_append d.left d.gone
  obtain ⟨j, hj, hright⟩ := h.exists_of_le (hlength ▸ hle)
  rw [hlength, ← hd.totalLength_front] at hj
  rw [hj, new_eq]
  exact hright.behind _

end Change

/-- While a reach is raised from `r` to `r'`, the stream keeps its cuts from there on, and the reach
    stays at a cut. -/
structure Confined (old : List Node) (r : Nat) (new : List Node) (r' : Nat) : Prop where
  le : r ≤ r'
  kept : ∀ k, r' ≤ k → IsCut old k → IsCut new k
  isCut : IsCut old r → IsCut new r'

namespace Confined

variable {old mid new : List Node} {r r₁ r₂ : Nat}

theorem refl (old : List Node) (r : Nat) : Confined old r old r :=
  ⟨Nat.le_refl r, fun _ _ h => h, id⟩

theorem trans (h : Confined old r mid r₁) (h' : Confined mid r₁ new r₂) :
    Confined old r new r₂ := by
  refine ⟨Nat.le_trans h.le h'.le, ?_, fun hcut => h'.isCut (h.isCut hcut)⟩
  intro k hk hcut
  exact h'.kept k hk (h.kept k (Nat.le_trans h'.le hk) hcut)

/-- What a frame of its own does to the stream, seen from a frame around it with reach `r`. -/
theorem around (h : Confined old r₁ new r₂) (hcut : IsCut old r₁) (r : Nat) :
    Confined old r new (max r r₂) := by
  have hkept : ∀ k, max r r₂ ≤ k → IsCut old k → IsCut new k := by
    intro k hk
    exact h.kept k (Nat.le_trans (Nat.le_max_right r r₂) hk)
  refine ⟨Nat.le_max_left r r₂, hkept, ?_⟩
  intro hr
  rcases Nat.le_total r₂ r with hle | hle
  · rw [Nat.max_eq_left hle]
    exact h.kept r hle hr
  · rw [Nat.max_eq_right hle]
    exact h.isCut hcut

end Confined

theorem Change.Sound.confined {l : Level} {text : List Char} {d : Change} (hd : d.Sound l text)
    (r : Nat) : Confined d.old r d.new (max r d.reach) := by
  have hkept : ∀ k, max r d.reach ≤ k → IsCut d.old k → IsCut d.new k := by
    intro k hk hcut
    exact hd.isCut_new hcut (Nat.le_trans (Nat.le_max_right r d.reach) hk)
  refine ⟨Nat.le_max_left r d.reach, hkept, ?_⟩
  intro hr
  rcases Nat.le_total d.reach r with hle | hle
  · rw [Nat.max_eq_left hle]
    exact hd.isCut_new hr hle
  · rw [Nat.max_eq_right hle]
    exact hd.isCut_reach

/-- Between the frames `f` and `g` of a level the reach is raised, if there is one. `left` and `left'`
    are the nodes of the level before them. -/
structure Raises (left : List Node) (f : Frame) (left' : List Node) (g : Frame) : Prop where
  of_none : f.reach = none → g.reach = none
  of_some : ∀ r, f.reach = some r →
    ∃ r', g.reach = some r' ∧ Confined (left ++ f.nodes) r (left' ++ g.nodes) r'

/-- The reach of a frame is between two nodes of the level. -/
def Bounded (left : List Node) (f : Frame) : Prop :=
  ∀ r, f.reach = some r → IsCut (left ++ f.nodes) r

namespace Raises

variable {left₁ left₂ left₃ : List Node} {f g k : Frame}

theorem trans (h : Raises left₁ f left₂ g) (h' : Raises left₂ g left₃ k) :
    Raises left₁ f left₃ k := by
  refine ⟨fun hnone => h'.of_none (h.of_none hnone), ?_⟩
  intro r hr
  obtain ⟨r₁, hr₁, hconfined⟩ := h.of_some r hr
  obtain ⟨r₂, hr₂, hconfined'⟩ := h'.of_some r₁ hr₁
  exact ⟨r₂, hr₂, hconfined.trans hconfined'⟩

/-- Where the stream and the reach are the same. -/
theorem of_eq (hnodes : left₁ ++ f.nodes = left₂ ++ g.nodes) (hreach : g.reach = f.reach) :
    Raises left₁ f left₂ g := by
  refine ⟨fun hnone => hreach.trans hnone, ?_⟩
  intro r hr
  rw [hnodes]
  exact ⟨r, hreach.trans hr, .refl _ r⟩

theorem bounded (h : Raises left₁ f left₂ g) (hf : Bounded left₁ f) : Bounded left₂ g := by
  intro r' hr'
  cases hr : f.reach with
  | none =>
    have hnone := h.of_none hr
    rw [hr'] at hnone
    simp at hnone
  | some r =>
    obtain ⟨r'', hr'', hconfined⟩ := h.of_some r hr
    rw [hr', Option.some.injEq] at hr''
    rw [hr'']
    exact hconfined.isCut (hf r hr)

end Raises

/-- A match that a scan replaces nodes for, with the frame as it stood just before. -/
structure Making where
  candidate : Candidate
  /-- The nodes of the level before the frame. -/
  left : List Node
  frame : Frame
  hit : Hit
  token : Node

namespace Making

/-- What the match does to the stream. -/
def change (m : Making) : Change :=
  .ofHit m.candidate m.left m.frame m.hit m.token

/-- What a reach `r` of the frame says about the match. -/
structure Obeys (m : Making) (r : Nat) : Prop where
  /-- The scan has not come to the reach. -/
  lt : m.frame.here.offset < r
  /-- A match in a fragment does not go beyond the reach, and starts there only if it is empty. -/
  of_fragment : m.candidate.pattern.mode = .fragment →
    m.hit.stop.offset ≤ r ∧ (m.hit.start.offset < r ∨ m.hit.matched = [])
  /-- A match in the whole input is the first one from the place of the scan on. -/
  of_input : m.candidate.pattern.mode = .input → ∃ found : PatternMatch,
    m.candidate.pattern.find m.frame.here = .ok (some found) ∧
      m.hit.start = found.span.start ∧ m.hit.stop = found.span.stop

end Making

namespace Level

/-- The matches that a scan makes. `left` are the nodes of the level before the frame. -/
def scanMakings (l : Level) (c : Candidate) (again : Frame → Except Fault Frame)
    (makings : List Node → Frame → List Making) : Nat → List Node → Frame → List Making
  | 0, _, _ => []
  | fuel + 1, left, f =>
    match l.step c f with
    | .error _ => []
    | .ok .finish => []
    | .ok (.pass passed g) => scanMakings l c again makings fuel (left ++ passed) g
    | .ok (.make h token) =>
      let front := left ++ h.passed ++ raw h.before
      ⟨c, left, f, h, token⟩ ::
        if 1 < h.covered then
          makings front (f.again h token) ++
            match again (f.again h token) with
            | .error _ => []
            | .ok sub => scanMakings l c again makings fuel (front ++ [token]) (f.resume h sub)
        else scanMakings l c again makings fuel (front ++ [token]) (f.behind h)

/-- The matches that the first `i` patterns make. -/
def passesMakings (l : Level) : Nat → List Node → Frame → List Making
  | 0, _, _ => []
  | i + 1, left, f =>
    l.passesMakings i left f ++
      match l.passes i f with
      | .error _ => []
      | .ok g =>
        match l.rules[i]? with
        | none => []
        | some c => l.scanMakings c (l.passes i) (l.passesMakings i) (l.bytes + 2) left g

/-- The matches of a run, in order. -/
def makings (l : Level) (text : List Char) : List Making :=
  l.passesMakings l.rules.size [] ⟨opening text, Cursor.start text, 1, none⟩

variable {l : Level} {text : List Char} {c : Candidate} {left : List Node} {f : Frame}
  {again : Frame → Except Fault Frame} {makings : List Node → Frame → List Making}
  {changes : List Node → Frame → List Change}

theorem map_change_scanMakings
    (h : ∀ left f, (makings left f).map Making.change = changes left f) (n : Nat) :
    (l.scanMakings c again makings n left f).map Making.change =
      l.scanChanges c again changes n left f := by
  induction n generalizing left f with
  | zero => rfl
  | succ n ih =>
    rw [scanMakings, scanChanges]
    cases l.step c f with
    | error e => rfl
    | ok step =>
    cases step with
    | finish => rfl
    | pass passed g => exact ih
    | make hit token =>
      dsimp only
      rw [List.map_cons, Making.change]
      by_cases hcovered : 1 < hit.covered
      · rw [if_pos hcovered, if_pos hcovered, List.map_append, h]
        cases again (f.again hit token) with
        | error e => rfl
        | ok sub =>
          dsimp only
          rw [ih]
      · rw [if_neg hcovered, if_neg hcovered, ih]

theorem map_change_passesMakings (i : Nat) :
    (l.passesMakings i left f).map Making.change = l.passesChanges i left f := by
  induction i generalizing left f with
  | zero => rfl
  | succ i ih =>
    rw [passesMakings, passesChanges, List.map_append, ih]
    cases l.passes i f with
    | error e => rfl
    | ok g =>
      cases l.rules[i]? with
      | none => rfl
      | some c =>
        dsimp only
        rw [map_change_scanMakings fun left f => ih]

/-- What a step has to find before it makes a token. -/
theorem of_step_make {h : Hit} {token : Node} (hstep : l.step c f = .ok (.make h token)) :
    (∀ r, f.reach = some r → f.here.offset < r) ∧
      ∃ s more, f.nodes = .text s :: more ∧ look c.pattern s more f.here = .ok (.hit h) := by
  unfold step at hstep
  split at hstep
  · simp at hstep
  · rename_i node more hnodes
    split at hstep
    · simp at hstep
    · rename_i hgo
      refine ⟨?_, ?_⟩
      · intro r hr
        rw [hr] at hgo
        simp at hgo
        exact hgo.1
      · cases node with
        | token t => simp at hstep
        | text s =>
          refine ⟨s, more, hnodes, ?_⟩
          dsimp only at hstep
          split at hstep
          · simp at hstep
          · simp at hstep
          · simp at hstep
          · rename_i hlook
            split at hstep
            · simp at hstep
            · cases hstep
              exact hlook

/-- What a step passes does not change what bounds the frame. -/
theorem reach_of_step_pass {passed : List Node} {g : Frame}
    (hstep : l.step c f = .ok (.pass passed g)) : g.reach = f.reach := by
  unfold step at hstep
  split at hstep
  · simp at hstep
  · split at hstep
    · simp at hstep
    · split at hstep
      · cases hstep
        rfl
      · split at hstep
        · simp at hstep
        · simp at hstep
        · cases hstep
          rfl
        · split at hstep <;> simp at hstep

end Level

/-- What is found in a fragment replaces that fragment alone. -/
theorem of_lookInFragment {p : Pattern} {s : String} {more : List Node} {here : Cursor} {h : Hit}
    (hlook : lookInFragment p s more here = .ok (.hit h)) :
    (∃ found, p.find (Cursor.start s.toList) = .ok (some found) ∧
      h.matched = found.span.chars) ∧
    h.passed = [] ∧ h.covered = 1 ∧ h.rest = more ∧ h.reach = here.offset + s.utf8ByteSize := by
  unfold lookInFragment at hlook
  cases hfind : p.find (Cursor.start s.toList) with
  | error e => simp [hfind, bind, Except.bind] at hlook
  | ok found =>
    cases found with
    | none => simp [hfind, bind, Except.bind, pure, Except.pure] at hlook
    | some m =>
      simp only [hfind, bind, Except.bind, pure, Except.pure, Except.ok.injEq,
        Look.hit.injEq] at hlook
      rw [← hlook]
      exact ⟨⟨m, rfl, rfl⟩, rfl, rfl, rfl, rfl⟩

/-- What is found in the whole input is the first match from its place on. It replaces what is
    covered from the node on that it starts in. -/
theorem of_lookInInput {p : Pattern} {nodes : List Node} {here : Cursor} {h : Hit}
    (hlook : lookInInput p nodes here = .ok (.hit h)) :
    ∃ found first others, p.find here = .ok (some found) ∧ h.matched = found.span.chars ∧
      h.start = found.span.start ∧ h.stop = found.span.stop ∧
      nodes = h.passed ++ first :: others ∧
      coverUpTo found.span.stop.offset (first :: others) (here.offset + totalLength h.passed) =
        some (h.covered, h.rest, h.reach) := by
  unfold lookInInput at hlook
  cases hfind : p.find here with
  | error e => simp [hfind, bind, Except.bind] at hlook
  | ok found =>
  cases found with
  | none => simp [hfind, bind, Except.bind, pure, Except.pure] at hlook
  | some m =>
  simp only [hfind, bind, Except.bind, pure, Except.pure] at hlook
  split at hlook
  · simp at hlook
  · generalize hpass : passUpTo m.span.start.offset nodes here.offset = pass at hlook
    obtain ⟨passed, rest, offset⟩ := pass
    obtain ⟨hnodes, hoffset, -, -⟩ := passUpTo_eq hpass
    cases rest with
    | nil => simp at hlook
    | cons first others =>
    dsimp only at hlook
    split at hlook
    · simp at hlook
    · split at hlook
      · simp at hlook
      · rename_i covered left reach hcover
        split at hlook
        · simp at hlook
        · cases hlook
          rw [hoffset] at hcover
          exact ⟨m, first, others, rfl, rfl, rfl, rfl, hnodes, hcover⟩

/-- The reach of a hit is where the nodes end that it replaces. -/
theorem reach_of_look {p : Pattern} {s : String} {more : List Node} {here : Cursor} {h : Hit}
    (hlook : look p s more here = .ok (.hit h)) :
    h.reach + totalLength h.rest = here.offset + totalLength (.text s :: more) := by
  unfold look at hlook
  split at hlook
  · obtain ⟨-, -, -, hrest, hreach⟩ := of_lookInFragment hlook
    rw [hrest, hreach, totalLength_cons, Node.length_text, Nat.add_assoc]
  · obtain ⟨_, _, _, -, -, -, -, hnodes, hcover⟩ := of_lookInInput hlook
    obtain ⟨gone, hgone, -, hreach, -⟩ := coverUpTo_eq hcover
    rw [hnodes, hgone, totalLength_append, totalLength_append, hreach]
    omega

namespace Level

variable {l : Level} {text : List Char} {c : Candidate} {left done : List Node} {f : Frame}
  {h : Hit} {gone : List Node} {token : Node} {r : Nat}

theorem At.reach_ofHit (hat : l.At text left f) (hfits : h.Fits c.pattern f.nodes f.here gone)
    (hstep : l.step c f = .ok (.make h token)) :
    (Change.ofHit c left f h token).reach = h.reach := by
  obtain ⟨-, s, more, hnodes, hlook⟩ := of_step_make hstep
  have hreach := reach_of_look hlook
  have hold : (Change.ofHit c left f h token).old = left ++ f.nodes := ofHit_old hfits
  have hlength := congrArg totalLength hold
  have hright : (Change.ofHit c left f h token).right = h.rest := rfl
  rw [Change.old, hright] at hlength
  simp only [totalLength_append] at hlength
  rw [← hnodes, hat.offset_eq] at hreach
  rw [Change.reach]
  omega

/-- A match in a frame with a reach keeps to it, as far as a scan sees to that. -/
theorem At.obeys (hat : l.At text left f) (hfits : h.Fits c.pattern f.nodes f.here gone)
    (hstep : l.step c f = .ok (.make h token)) (hreach : f.reach = some r)
    (hcut : IsCut (left ++ f.nodes) r) : Making.Obeys ⟨c, left, f, h, token⟩ r := by
  obtain ⟨hgo, s, more, hnodes, hlook⟩ := of_step_make hstep
  have hlt := hgo r hreach
  refine ⟨hlt, ?_, ?_⟩
  · intro hmode
    dsimp only at hmode ⊢
    rw [look, hmode] at hlook
    obtain ⟨-, hpassed, -, -, -⟩ := of_lookInFragment hlook
    obtain ⟨u, rfl⟩ := hfits.of_fragment hmode
    -- the fragment begins at the place of the scan and ends no later than the reach
    have hnodes' := hfits.nodes_eq
    rw [hpassed, List.nil_append, List.singleton_append] at hnodes'
    rw [hnodes'] at hcut
    rw [hat.offset_eq] at hlt
    obtain ⟨j, rfl, hj⟩ := hcut.exists_of_le (Nat.le_of_lt hlt)
    have hle := hj.length_le (by omega)
    have hlength := hfits.gone_length
    have hstart := hfits.start_offset
    have hstop := hfits.stop_offset
    rw [hpassed, hat.offset_eq] at hstart
    simp only [totalLength_cons, totalLength_nil, Node.length_text, byteLength_append]
      at hle hlength hstart
    refine ⟨by omega, ?_⟩
    by_cases hempty : h.matched = []
    · exact Or.inr hempty
    · left
      have hpos : byteLength h.matched ≠ 0 := fun hzero => hempty (byteLength_eq_zero.1 hzero)
      omega
  · intro hmode
    dsimp only at hmode ⊢
    rw [look, hmode] at hlook
    obtain ⟨found, -, -, hfind, -, hstart, hstop, -⟩ := of_lookInInput hlook
    exact ⟨found, hfind, hstart, hstop⟩

theorem bounded_again (hat : l.At text left f) (hc : c ∈ l.rules)
    (hfits : h.Fits c.pattern f.nodes f.here gone) (htoken : l.token c h.matched = .ok token)
    (hstep : l.step c f = .ok (.make h token)) :
    Bounded (left ++ h.passed ++ raw h.before) (f.again h token) := by
  intro r hr
  have hcut := (hat.sound_ofHit hc hfits htoken).isCut_reach
  rw [hat.reach_ofHit hfits hstep] at hcut
  cases hr
  simpa [Change.new, Change.ofHit, Frame.again] using hcut

theorem raises_behind (hat : l.At text left f) (hc : c ∈ l.rules)
    (hfits : h.Fits c.pattern f.nodes f.here gone) (htoken : l.token c h.matched = .ok token)
    (hstep : l.step c f = .ok (.make h token)) :
    Raises left f (left ++ h.passed ++ raw h.before ++ [token]) (f.behind h) := by
  refine ⟨fun hnone => by rw [Frame.behind, hnone]; rfl, ?_⟩
  intro r hr
  have hconfined := (hat.sound_ofHit hc hfits htoken).confined r
  rw [At.ofHit_old hfits, hat.reach_ofHit hfits hstep] at hconfined
  refine ⟨max r h.reach, by rw [Frame.behind, hr]; rfl, ?_⟩
  simpa [Change.new, Change.ofHit, Frame.behind] using hconfined

/-- What is scanned again raises the reach of the frame around it. -/
theorem raises_resume {sub : Frame} (hat : l.At text left f) (hc : c ∈ l.rules)
    (hfits : h.Fits c.pattern f.nodes f.here gone) (htoken : l.token c h.matched = .ok token)
    (hstep : l.step c f = .ok (.make h token))
    (hnodes : sub.nodes = token :: (f.resume h sub).nodes)
    (hsub : Raises (left ++ h.passed ++ raw h.before) (f.again h token)
      (left ++ h.passed ++ raw h.before) sub) :
    Raises left f (left ++ h.passed ++ raw h.before ++ [token]) (f.resume h sub) := by
  have hbehind := raises_behind hat hc hfits htoken hstep
  refine ⟨fun hnone => by rw [Frame.resume, hnone]; rfl, ?_⟩
  intro r hr
  obtain ⟨r₁, hr₁, hconfined⟩ := hbehind.of_some r hr
  obtain ⟨r₂, hr₂, hinner⟩ := hsub.of_some h.reach rfl
  have hcut := bounded_again hat hc hfits htoken hstep h.reach rfl
  have houter := hinner.around hcut r₁
  refine ⟨max r₁ r₂, ?_, ?_⟩
  · rw [Frame.behind] at hr₁
    dsimp only at hr₁
    rw [Frame.resume, hr₁, hr₂]
    rfl
  · have hold : left ++ h.passed ++ raw h.before ++ (f.again h token).nodes =
        left ++ h.passed ++ raw h.before ++ [token] ++ (f.behind h).nodes := by
      simp [Frame.again, Frame.behind]
    have hnew : left ++ h.passed ++ raw h.before ++ sub.nodes =
        left ++ h.passed ++ raw h.before ++ [token] ++ (f.resume h sub).nodes := by
      rw [hnodes, List.append_cons]
    rw [hold, hnew] at houter
    exact hconfined.trans houter

theorem nodes_resume (htoken : l.token c h.matched = .ok token) {sub : Frame}
    (hhead : ∀ t more, (f.again h token).nodes = .token t :: more →
      ∃ rest, sub.nodes = .token t :: rest) :
    sub.nodes = token :: (f.resume h sub).nodes := by
  obtain ⟨content, rfl, -⟩ := exists_of_token htoken
  obtain ⟨rest, hrest⟩ := hhead _ _ rfl
  rw [Frame.resume, hrest]
  rfl

section Scan

variable {again : Frame → Except Fault Frame} {changes : List Node → Frame → List Change}
  {makings : List Node → Frame → List Making}

theorem raises_scan (hc : c ∈ l.rules)
    (hagain : ∀ left f, l.At text left f →
      l.Traced text (left ++ f.nodes) left [] (again f) (changes left f))
    (hhead : ∀ f g t more, again f = .ok g → f.nodes = .token t :: more →
      ∃ rest, g.nodes = .token t :: rest)
    (hraises : ∀ left f g, l.At text left f → again f = .ok g → Raises left f left g)
    (n : Nat) {g : Frame} (hat : l.At text left f) (hscan : l.scan c again n done f = .ok g) :
    ∃ ys, g.nodes = done.reverse ++ ys ∧ Raises left f left { g with nodes := ys } := by
  induction n generalizing left done f with
  | zero =>
    cases hscan
    exact ⟨f.nodes, rfl, .of_eq rfl rfl⟩
  | succ n ih =>
    have hstepped := hat.stepped c
    rw [scan_succ] at hscan
    cases hstep : l.step c f with
    | error e => simp [hstep] at hscan
    | ok step =>
    rw [hstep] at hscan hstepped
    cases hstepped with
    | finish =>
      cases hscan
      exact ⟨f.nodes, rfl, .of_eq rfl rfl⟩
    | @pass passed mid hnodes _ hmid =>
      obtain ⟨ys, hys, hrest⟩ := ih hmid hscan
      have hpass : Raises left f (left ++ passed) mid := by
        refine .of_eq ?_ (reach_of_step_pass hstep)
        rw [hnodes, List.append_assoc]
      refine ⟨passed ++ ys, ?_, ?_⟩
      · rw [hys, List.reverse_append, List.reverse_reverse, List.append_assoc]
      · refine hpass.trans (hrest.trans (.of_eq ?_ rfl))
        dsimp only
        rw [List.append_assoc]
    | @make h gone token hfits htoken =>
      -- what comes before the rest of the scan is put back in front of it
      have hpush : ∀ mid, Raises left f (left ++ h.passed ++ raw h.before ++ [token]) mid →
          l.At text (left ++ h.passed ++ raw h.before ++ [token]) mid →
          l.scan c again n (token :: ((raw h.before).reverse ++ h.passed.reverse ++ done)) mid =
            .ok g → ∃ ys, g.nodes = done.reverse ++ ys ∧ Raises left f left { g with nodes := ys } := by
        intro mid hmid hatMid hscan
        obtain ⟨ys, hys, hrest⟩ := ih hatMid hscan
        refine ⟨h.passed ++ raw h.before ++ [token] ++ ys, ?_, ?_⟩
        · simpa using hys
        · refine hmid.trans (hrest.trans (.of_eq ?_ rfl))
          simp
      dsimp only at hscan
      split at hscan
      · have hsub := hat.again hc hfits htoken
        have htraced := hagain _ _ hsub
        cases hr : again (f.again h token) with
        | error e => simp [hr] at hscan
        | ok sub =>
          rw [hr] at hscan htraced
          have hheadSub := fun t more => hhead _ _ t more hr
          obtain ⟨hresume, -⟩ := hat.resume hc hfits htoken hheadSub htraced
          refine hpush _ ?_ hresume hscan
          exact raises_resume hat hc hfits htoken hstep (nodes_resume htoken hheadSub)
            (hraises _ _ _ hsub hr)
      · exact hpush _ (raises_behind hat hc hfits htoken hstep) (hat.behind hc hfits htoken) hscan

theorem raises_passes (i : Nat) {g : Frame} (hat : l.At text left f)
    (hpasses : l.passes i f = .ok g) : Raises left f left g := by
  induction i generalizing left f g with
  | zero =>
    cases hpasses
    exact .of_eq rfl rfl
  | succ i ih =>
    rw [passes_succ] at hpasses
    have htraced := passes_traced i hat
    cases hmid : l.passes i f with
    | error e => simp [hmid] at hpasses
    | ok mid =>
      rw [hmid] at hpasses htraced
      obtain ⟨hatMid, -⟩ := htraced.at hat
      rw [← here_of_passes hmid] at hatMid
      have hfirst := ih hat hmid
      cases hc : l.rules[i]? with
      | none =>
        rw [hc] at hpasses
        cases hpasses
        exact hfirst
      | some c =>
        rw [hc] at hpasses
        dsimp only at hpasses
        cases hscan : l.scan c (l.passes i) (l.bytes + 2) [] mid with
        | error e => simp [hscan] at hpasses
        | ok last =>
          rw [hscan] at hpasses
          cases hpasses
          obtain ⟨ys, hys, hraises⟩ := raises_scan (Array.mem_of_getElem? hc)
            (fun left f hat => passes_traced i hat) (fun f g t more => head_of_passes)
            (fun left f g hat => ih hat) (l.bytes + 2) hatMid hscan
          rw [List.reverse_nil, List.nil_append] at hys
          refine hfirst.trans (hraises.trans (.of_eq ?_ rfl))
          dsimp only
          rw [hys]

theorem obeys_scanMakings (hc : c ∈ l.rules)
    (hagain : ∀ left f, l.At text left f →
      l.Traced text (left ++ f.nodes) left [] (again f) (changes left f))
    (hhead : ∀ f g t more, again f = .ok g → f.nodes = .token t :: more →
      ∃ rest, g.nodes = .token t :: rest)
    (hraises : ∀ left f g, l.At text left f → again f = .ok g → Raises left f left g)
    (hobeys : ∀ left f, l.At text left f → Bounded left f →
      ∀ m ∈ makings left f, ∀ r, m.frame.reach = some r → m.Obeys r)
    (n : Nat) (hat : l.At text left f) (hbounded : Bounded left f) :
    ∀ m ∈ l.scanMakings c again makings n left f, ∀ r, m.frame.reach = some r → m.Obeys r := by
  induction n generalizing left f with
  | zero => simp [scanMakings]
  | succ n ih =>
    have hstepped := hat.stepped c
    rw [scanMakings]
    cases hstep : l.step c f with
    | error e => simp
    | ok step =>
    rw [hstep] at hstepped
    cases hstepped with
    | finish => simp
    | @pass passed g hnodes _ hg =>
      refine ih hg (Raises.bounded (.of_eq ?_ (reach_of_step_pass hstep)) hbounded)
      rw [hnodes, List.append_assoc]
    | @make h gone token hfits htoken =>
      intro m hm
      rcases List.mem_cons.1 hm with rfl | hm
      · intro r hr
        exact hat.obeys hfits hstep hr (hbounded r hr)
      · split at hm
        · have hsub := hat.again hc hfits htoken
          have hboundedSub := bounded_again hat hc hfits htoken hstep
          have htraced := hagain _ _ hsub
          rcases List.mem_append.1 hm with hm | hm
          · exact hobeys _ _ hsub hboundedSub m hm
          · cases hr : again (f.again h token) with
            | error e => simp [hr] at hm
            | ok sub =>
              rw [hr] at hm htraced
              have hheadSub := fun t more => hhead _ _ t more hr
              obtain ⟨hresume, -⟩ := hat.resume hc hfits htoken hheadSub htraced
              have hraised := raises_resume hat hc hfits htoken hstep
                (nodes_resume htoken hheadSub) (hraises _ _ _ hsub hr)
              exact ih hresume (hraised.bounded hbounded) m hm
        · have hraised := raises_behind hat hc hfits htoken hstep
          exact ih (hat.behind hc hfits htoken) (hraised.bounded hbounded) m hm

theorem obeys_passesMakings (i : Nat) (hat : l.At text left f) (hbounded : Bounded left f) :
    ∀ m ∈ l.passesMakings i left f, ∀ r, m.frame.reach = some r → m.Obeys r := by
  induction i generalizing left f with
  | zero => simp [passesMakings]
  | succ i ih =>
    intro m hm
    rw [passesMakings] at hm
    rcases List.mem_append.1 hm with hm | hm
    · exact ih hat hbounded m hm
    · have htraced := passes_traced i hat
      cases hmid : l.passes i f with
      | error e => simp [hmid] at hm
      | ok mid =>
        rw [hmid] at hm htraced
        obtain ⟨hatMid, -⟩ := htraced.at hat
        rw [← here_of_passes hmid] at hatMid
        have hboundedMid := (raises_passes i hat hmid).bounded hbounded
        cases hc : l.rules[i]? with
        | none => simp [hc] at hm
        | some c =>
          rw [hc] at hm
          exact obeys_scanMakings (Array.mem_of_getElem? hc)
            (fun left f hat => passes_traced i hat) (fun f g t more => head_of_passes)
            (fun left f g hat => raises_passes i hat) (fun left f hat => ih hat) _ hatMid
            hboundedMid m hm

end Scan

/-- Every change of a run comes from a match, and every match in a frame with a reach keeps to it:
    the scan has not come to the reach, and what is found in a fragment does not go beyond it. What
    is found in the whole input is the first match from the place of the scan on. -/
theorem obeys_of_makings (l : Level) (text : List Char) :
    (l.makings text).map Making.change = l.changes text ∧
      ∀ m ∈ l.makings text, ∀ r, m.frame.reach = some r → m.Obeys r := by
  refine ⟨map_change_passesMakings l.rules.size, ?_⟩
  refine obeys_passesMakings l.rules.size (At.opening l text) ?_
  intro r hr
  simp at hr

/-- Every match in a frame with a reach starts before it. -/
def StaysBefore (l : Level) (text : List Char) : Prop :=
  ∀ m ∈ l.makings text, ∀ r, m.frame.reach = some r → m.hit.start.offset < r

instance (l : Level) (text : List Char) : Decidable (l.StaysBefore text) :=
  decidable_of_iff (∀ m ∈ l.makings text, m.frame.reach.all (m.hit.start.offset < ·) = true) (by
    simp [StaysBefore, Option.all_eq_true])

end Level

end Tokenizer

namespace Store

open Tokenizer

/-- A grammar in which a group covers a word, and a pattern for the whole input has its first match
    far behind the group. -/
def distant : GrammarDef :=
  .ofRules [
    .mk "gap" [.plain "##"],
    .mk "far" [.mk { source := "\\(.*?#|z", greedy := true } .none],
    .mk "word" [.plain "b|w"],
    .mk "group" [.mk { source := "\\(b\\)", greedy := true } .none]] none

/-- The store with the grammar `distant`. -/
def faraway : Store :=
  match empty.define "distant" distant with
  | .ok (_, s) => s
  | .error _ => empty

/-- The group is scanned again up to offset 4, and with the pattern for the whole input the scan
    makes a token at offset 5. -/
theorem not_staysBefore_faraway :
    ¬ (faraway.levelOf ⟨0⟩ "(b)cwz##".toList).StaysBefore "(b)cwz##".toList := by
  decide +kernel

theorem exists_making_faraway : ∃ m ∈ (faraway.levelOf ⟨0⟩ "(b)cwz##".toList).makings
    "(b)cwz##".toList, ∃ r, m.frame.reach = some r := by
  have hany : ((faraway.levelOf ⟨0⟩ "(b)cwz##".toList).makings "(b)cwz##".toList).any
      (fun m => m.frame.reach.isSome) = true := by
    decide +kernel
  obtain ⟨m, hm, hreach⟩ := List.any_eq_true.1 hany
  exact ⟨m, hm, Option.isSome_iff_exists.1 hreach⟩

theorem obeys_in_faraway : ∃ m ∈ (faraway.levelOf ⟨0⟩ "(b)cwz##".toList).makings
    "(b)cwz##".toList, ∃ r, m.frame.reach = some r ∧ m.Obeys r := by
  obtain ⟨m, hm, r, hr⟩ := exists_making_faraway
  exact ⟨m, hm, r, hr, (Level.obeys_of_makings _ _).2 m hm r hr⟩

end Store

end SyntaxHue
