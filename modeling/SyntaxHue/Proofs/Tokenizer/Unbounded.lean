import SyntaxHue.Proofs.Tokenizer.Stop

/-!
# Levels without bounds

`Level.scan` counts its steps down, and nothing in its result tells whether it ran out of them.
`Level.Scans` and `Level.Applies` are the same rules without a count: a result is related to a frame
only if finitely many steps lead to it. Main statements: a level always comes to an end, with the
result of `Level.passes` and no other, and what is scanned again after a match of pattern `i` is
touched by the patterns before `i` alone.
-/

namespace SyntaxHue

namespace Tokenizer

namespace Level

mutual

/-- Applying the pattern with number `i` from the frame `f` on comes to an end with `r`. `done` are
    the nodes that were passed, last first. After a match that covers several nodes the frame from
    the token on is scanned again with the patterns before number `i`. -/
inductive Scans (l : Level) : Nat → Candidate → List Node → Frame → Except Fault Frame → Prop where
  | error {i : Nat} {c : Candidate} {done : List Node} {f : Frame} {e : Fault} :
      l.step c f = .error e → Scans l i c done f (.error e)
  | finish {i : Nat} {c : Candidate} {done : List Node} {f : Frame} :
      l.step c f = .ok .finish →
      Scans l i c done f (.ok { f with nodes := done.reverse ++ f.nodes })
  | pass {i : Nat} {c : Candidate} {done passed : List Node} {f g : Frame}
      {r : Except Fault Frame} : l.step c f = .ok (.pass passed g) →
      Scans l i c (passed.reverse ++ done) g r → Scans l i c done f r
  | make {i : Nat} {c : Candidate} {done : List Node} {f : Frame} {h : Hit} {token : Node}
      {r : Except Fault Frame} : l.step c f = .ok (.make h token) → ¬ 1 < h.covered →
      Scans l i c (token :: ((raw h.before).reverse ++ h.passed.reverse ++ done)) (f.behind h) r →
      Scans l i c done f r
  | againError {i : Nat} {c : Candidate} {done : List Node} {f : Frame} {h : Hit} {token : Node}
      {e : Fault} : l.step c f = .ok (.make h token) → 1 < h.covered →
      Applies l i (f.again h token) (.error e) → Scans l i c done f (.error e)
  | again {i : Nat} {c : Candidate} {done : List Node} {f sub : Frame} {h : Hit} {token : Node}
      {r : Except Fault Frame} : l.step c f = .ok (.make h token) → 1 < h.covered →
      Applies l i (f.again h token) (.ok sub) →
      Scans l i c (token :: ((raw h.before).reverse ++ h.passed.reverse ++ done))
        (f.resume h sub) r → Scans l i c done f r

/-- Applying the patterns with numbers below `i`, one after the other and each from the start of
    the frame on, comes to an end with `r`. -/
inductive Applies (l : Level) : Nat → Frame → Except Fault Frame → Prop where
  | zero {f : Frame} : Applies l 0 f (.ok f)
  | error {i : Nat} {f : Frame} {e : Fault} :
      Applies l i f (.error e) → Applies l (i + 1) f (.error e)
  | beyond {i : Nat} {f mid : Frame} :
      Applies l i f (.ok mid) → l.rules[i]? = none → Applies l (i + 1) f (.ok mid)
  | scanError {i : Nat} {f mid : Frame} {c : Candidate} {e : Fault} :
      Applies l i f (.ok mid) → l.rules[i]? = some c → Scans l i c [] mid (.error e) →
      Applies l (i + 1) f (.error e)
  | scan {i : Nat} {f mid g : Frame} {c : Candidate} :
      Applies l i f (.ok mid) → l.rules[i]? = some c → Scans l i c [] mid (.ok g) →
      Applies l (i + 1) f (.ok { g with here := mid.here })

end

variable {l : Level} {text : List Char} {left done : List Node} {c : Candidate} {f : Frame}
  {i n : Nat} {r r' : Except Fault Frame}

/-- A scan ends before it has passed more nodes than there are bytes, however often a match is
    empty and leaves it where it is. -/
theorem scans_scan (hc : c ∈ l.rules)
    (happlies : ∀ left f, l.At text left f → l.Applies i f (l.passes i f))
    (hat : l.At text left f) (hdone : done.length ≤ left.length)
    (hn : l.bytes < n + done.length) :
    l.Scans i c done f (l.scan c (l.passes i) n done f) := by
  induction n generalizing left done f with
  | zero => exact .finish (step_of_length hat hdone (by omega))
  | succ n ih =>
    have hstepped := hat.stepped c
    rw [scan_succ]
    generalize hstep : l.step c f = q at hstepped ⊢
    cases hstepped with
    | finish => exact .finish hstep
    | search => exact .error hstep
    | inner => exact .error hstep
    | @pass passed g hnodes hpassed hg =>
      have hpos := List.length_pos_iff.2 hpassed
      exact .pass hstep (ih hg (by simp; omega) (by simp; omega))
    | make hfits htoken =>
      dsimp only
      split
      · rename_i hcovered
        have hsub := hat.again hc hfits htoken
        have hagain := happlies _ _ hsub
        have htraced := passes_traced i hsub
        generalize hr : l.passes i _ = sub at hagain htraced ⊢
        cases sub with
        | error e => exact .againError hstep hcovered hagain
        | ok sub =>
          obtain ⟨hresume, -⟩ :=
            hat.resume hc hfits htoken (fun t more => head_of_passes hr) htraced
          exact .again hstep hcovered hagain (ih hresume (by simp; omega) (by simp; omega))
      · rename_i hcovered
        exact .make hstep hcovered
          (ih (hat.behind hc hfits htoken) (by simp; omega) (by simp; omega))

/-- Applying patterns ends with what `passes` returns. -/
theorem applies_passes (i : Nat) (hat : l.At text left f) : l.Applies i f (l.passes i f) := by
  induction i generalizing left f with
  | zero => exact .zero
  | succ i ih =>
    have hmid := ih hat
    have htraced := passes_traced i hat
    rw [passes_succ]
    generalize hpasses : l.passes i f = q at hmid htraced ⊢
    cases q with
    | error e => exact .error hmid
    | ok mid =>
      obtain ⟨hatMid, -⟩ := htraced.at hat
      rw [← here_of_passes hpasses] at hatMid
      dsimp only
      cases hc : l.rules[i]? with
      | none => exact .beyond hmid hc
      | some c =>
        have hscans : l.Scans i c [] mid (l.scan c (l.passes i) (l.bytes + 2) [] mid) :=
          scans_scan (Array.mem_of_getElem? hc) (fun left f hat => ih hat) hatMid
            (Nat.zero_le _) (by simp only [List.length_nil]; omega)
        dsimp only
        generalize l.scan c (l.passes i) (l.bytes + 2) [] mid = q at hscans ⊢
        cases q with
        | error e => exact .scanError hmid hc hscans
        | ok g => exact .scan hmid hc hscans

/-- What the step of a scan says about where the scan ends. -/
theorem scans_iff : l.Scans i c done f r ↔
    match l.step c f with
    | .error e => r = .error e
    | .ok .finish => r = .ok { f with nodes := done.reverse ++ f.nodes }
    | .ok (.pass passed g) => l.Scans i c (passed.reverse ++ done) g r
    | .ok (.make h token) =>
      let done := token :: ((raw h.before).reverse ++ h.passed.reverse ++ done)
      if 1 < h.covered then
        (∃ e, l.Applies i (f.again h token) (.error e) ∧ r = .error e) ∨
          ∃ sub, l.Applies i (f.again h token) (.ok sub) ∧ l.Scans i c done (f.resume h sub) r
      else l.Scans i c done (f.behind h) r := by
  constructor
  · intro h
    cases h with
    | error hstep => rw [hstep]
    | finish hstep => rw [hstep]
    | pass hstep hrest =>
      rw [hstep]
      exact hrest
    | make hstep hcovered hrest =>
      rw [hstep]
      simpa only [if_neg hcovered] using hrest
    | againError hstep hcovered hsub =>
      rw [hstep]
      simp only [if_pos hcovered]
      exact Or.inl ⟨_, hsub, rfl⟩
    | again hstep hcovered hsub hrest =>
      rw [hstep]
      simp only [if_pos hcovered]
      exact Or.inr ⟨_, hsub, hrest⟩
  · intro h
    split at h
    · rename_i hstep
      exact h ▸ .error hstep
    · rename_i hstep
      exact h ▸ .finish hstep
    · rename_i hstep
      exact .pass hstep h
    · rename_i hstep
      dsimp only at h
      split at h
      · rename_i hcovered
        rcases h with ⟨e, hsub, rfl⟩ | ⟨sub, hsub, hrest⟩
        · exact .againError hstep hcovered hsub
        · exact .again hstep hcovered hsub hrest
      · rename_i hcovered
        exact .make hstep hcovered h

mutual

/-- A scan comes to no two ends. -/
theorem Scans.unique {i : Nat} {c : Candidate} {done : List Node} {f : Frame}
    {r r' : Except Fault Frame} (h : l.Scans i c done f r) (h' : l.Scans i c done f r') :
    r = r' := by
  rw [scans_iff] at h'
  match h with
  | .error hstep =>
    rw [hstep] at h'
    exact h'.symm
  | .finish hstep =>
    rw [hstep] at h'
    exact h'.symm
  | .pass hstep hrest =>
    rw [hstep] at h'
    exact hrest.unique h'
  | .make hstep hcovered hrest =>
    rw [hstep] at h'
    simp only [if_neg hcovered] at h'
    exact hrest.unique h'
  | .againError hstep hcovered hsub =>
    rw [hstep] at h'
    simp only [if_pos hcovered] at h'
    rcases h' with ⟨e, hsub', rfl⟩ | ⟨sub, hsub', -⟩
    · exact Except.error.inj (hsub.unique hsub') ▸ rfl
    · exact absurd (hsub.unique hsub') (by simp)
  | .again hstep hcovered hsub hrest =>
    rw [hstep] at h'
    simp only [if_pos hcovered] at h'
    rcases h' with ⟨e, hsub', -⟩ | ⟨sub, hsub', hrest'⟩
    · exact absurd (hsub.unique hsub') (by simp)
    · rw [← Except.ok.inj (hsub.unique hsub')] at hrest'
      exact hrest.unique hrest'
termination_by structural h

/-- Applying patterns comes to no two ends. -/
theorem Applies.unique {i : Nat} {f : Frame} {r r' : Except Fault Frame}
    (h : l.Applies i f r) (h' : l.Applies i f r') : r = r' := by
  match h with
  | .zero =>
    cases h'
    rfl
  | .error hmid =>
    cases h' with
    | error hmid' => exact Except.error.inj (hmid.unique hmid') ▸ rfl
    | beyond hmid' | scanError hmid' | scan hmid' => exact absurd (hmid.unique hmid') (by simp)
  | .beyond hmid hc =>
    cases h' with
    | error hmid' => exact absurd (hmid.unique hmid') (by simp)
    | beyond hmid' => exact hmid.unique hmid'
    | scanError _ hc' | scan _ hc' => simp [hc] at hc'
  | .scanError hmid hc hscan =>
    cases h' with
    | error hmid' => exact absurd (hmid.unique hmid') (by simp)
    | beyond _ hc' => simp [hc] at hc'
    | scanError hmid' hc' hscan' =>
      cases hmid.unique hmid'
      cases hc.symm.trans hc'
      exact hscan.unique hscan'
    | scan hmid' hc' hscan' =>
      cases hmid.unique hmid'
      cases hc.symm.trans hc'
      exact absurd (hscan.unique hscan') (by simp)
  | .scan hmid hc hscan =>
    cases h' with
    | error hmid' => exact absurd (hmid.unique hmid') (by simp)
    | beyond _ hc' => simp [hc] at hc'
    | scanError hmid' hc' hscan' =>
      cases hmid.unique hmid'
      cases hc.symm.trans hc'
      exact absurd (hscan.unique hscan') (by simp)
    | scan hmid' hc' hscan' =>
      cases hmid.unique hmid'
      cases hc.symm.trans hc'
      rw [Except.ok.inj (hscan.unique hscan')]
termination_by structural h

end

/-- A run of the level on a text comes to an end with `r`. -/
def Ends (l : Level) (text : List Char) (r : Except Fault (List Node)) : Prop :=
  ∃ last, l.Applies l.rules.size ⟨opening text, Cursor.start text, 1, none⟩ last ∧
    r = last.map Frame.nodes

/-- Every run of a level comes to an end, with the result of `run` and no other. -/
theorem ends_iff {r : Except Fault (List Node)} : l.Ends text r ↔ r = l.run text := by
  have happlies := applies_passes l.rules.size (At.opening l text)
  rw [run_eq]
  constructor
  · rintro ⟨last, hlast, rfl⟩
    rw [hlast.unique happlies]
  · intro h
    exact ⟨_, happlies, h⟩

variable {rules : Array Candidate}

/-- A scan looks at no pattern but its own, unless it scans again. -/
theorem scan_with_rules {again : Frame → Except Fault Frame} :
    ({ l with rules } : Level).scan c again n done f = l.scan c again n done f := by
  induction n generalizing done f with
  | zero => rfl
  | succ n ih =>
    have hstep : ({ l with rules } : Level).step c f = l.step c f := rfl
    simp only [scan_succ, hstep, ih]

/-- The patterns from number `i` on have no part in what the patterns below `i` do. -/
theorem passes_with_rules (h : ∀ j < i, rules[j]? = l.rules[j]?) :
    ({ l with rules } : Level).passes i f = l.passes i f := by
  induction i generalizing f with
  | zero => rfl
  | succ i ih =>
    have hbelow : ({ l with rules } : Level).passes i = l.passes i := by
      funext g
      exact ih fun j hj => h j (Nat.lt_succ_of_lt hj)
    have hi : rules[i]? = l.rules[i]? := h i (Nat.lt_succ_self i)
    simp only [passes_succ, hbelow, hi, scan_with_rules]

end Level

end Tokenizer

end SyntaxHue
