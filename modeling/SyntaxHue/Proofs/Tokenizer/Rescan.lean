import SyntaxHue.Proofs.Tokenizer.Splice

/-!
# Scanning again is confined

A match that covers several nodes has what follows its token scanned again, while the scan that
made the token waits at its cell. `Splice.Rescan.Confined` says what such a part leaves as it was
and how far it gets. It follows for all parts of a run, those inside others among them, from what
one turn of a scan does: it edits the stream behind its own cell only.
-/

namespace SyntaxHue

namespace Tokenizer

namespace Splice

open TokenStream

/-- What was scanned again stayed behind its token: all nodes up to the token are as they were, and
    it starts where it did. Only patterns before the cause were applied, and nothing was replaced
    behind the reach at the end. -/
structure Rescan.Confined (r : Rescan) : Prop where
  kept : ∃ front t back back', r.before.Holds (front ++ (r.token, .token t) :: back) ∧
    r.after.Holds (front ++ (r.token, .token t) :: back') ∧
    Keeps (front ++ [(r.token, .token t)]) r.before r.after ∧
    totalLength (valuesOf front) = r.start
  applied : ∀ i ∈ r.applied, i < r.cause
  stops : ∀ k ∈ r.stops, k ≤ r.reach

/-- All calls are made behind the head or a linked cell, scans look at linked cells, and what is
    scanned again is confined. -/
structure Log.Sound (log : Log) : Prop where
  edits : ∀ call ∈ log.edits, call.1.Has call.2.cell
  visits : ∀ visit ∈ log.visits, visit.1.Links visit.2
  rescans : ∀ r ∈ log.rescans, r.Confined

@[simp] theorem Log.applied_append (a b : Log) : (a ++ b).applied = a.applied ++ b.applied := rfl

@[simp] theorem Log.stops_append (a b : Log) : (a ++ b).stops = a.stops ++ b.stops := rfl

theorem Log.Sound.append {a b : Log} (ha : a.Sound) (hb : b.Sound) : (a ++ b).Sound where
  edits := List.forall_mem_append.2 ⟨ha.edits, hb.edits⟩
  visits := List.forall_mem_append.2 ⟨ha.visits, hb.visits⟩
  rescans := List.forall_mem_append.2 ⟨ha.rescans, hb.rescans⟩

/-- A reach, if there is one, has been raised over all of `stops`. -/
structure Raised (reach raised : Option Nat) (stops : List Nat) : Prop where
  of_none : reach = none → raised = none
  of_some : ∀ r, reach = some r → ∃ r', raised = some r' ∧ r ≤ r' ∧ ∀ k ∈ stops, k ≤ r'

namespace Raised

variable {reach mid raised : Option Nat} {stops more : List Nat}

theorem refl (reach : Option Nat) : Raised reach reach [] :=
  ⟨id, fun r hr => ⟨r, hr, Nat.le_refl r, by simp⟩⟩

theorem trans (h : Raised reach mid stops) (h' : Raised mid raised more) :
    Raised reach raised (stops ++ more) := by
  refine ⟨fun hnone => h'.of_none (h.of_none hnone), ?_⟩
  intro r hr
  obtain ⟨r₁, hr₁, hle, hstops⟩ := h.of_some r hr
  obtain ⟨r₂, hr₂, hle', hmore⟩ := h'.of_some r₁ hr₁
  refine ⟨r₂, hr₂, Nat.le_trans hle hle', List.forall_mem_append.2 ⟨?_, hmore⟩⟩
  intro k hk
  exact Nat.le_trans (hstops k hk) hle'

theorem raise (k : Nat) (reach : Option Nat) (h : ∀ j ∈ stops, j ≤ k) :
    Raised reach (Tokenizer.raise k reach) stops := by
  cases reach with
  | none => exact ⟨fun _ => rfl, by simp⟩
  | some r =>
    refine ⟨by simp, ?_⟩
    rintro _ ⟨⟩
    refine ⟨max r k, rfl, Nat.le_max_left r k, ?_⟩
    intro j hj
    exact Nat.le_trans (h j hj) (Nat.le_max_right r k)

end Raised

variable {l : Level} {text : List Char} {s t u : TokenStream} {front mid back rest : List Entry}
  {here there : Cursor} {reach raised : Option Nat} {c : Candidate} {stops : List Nat}

/-- A token that is the first of `back` is the first of `rest`, and all up to it is as it was. -/
def HeadKept (front back : List Entry) (s : TokenStream) (rest : List Entry) (t : TokenStream) :
    Prop :=
  ∀ cell token more, back = (cell, .token token) :: more →
    (∃ more, rest = (cell, .token token) :: more) ∧ Keeps (front ++ [(cell, .token token)]) s t

/-- Scans behind `front` have made `rest` of `back`. -/
structure Reaches (l : Level) (text : List Char) (front : List Entry) (here : Cursor)
    (s : TokenStream) (back : List Entry) (reach : Option Nat) (stops : List Nat)
    (t : TokenStream) (rest : List Entry) (raised : Option Nat) : Prop where
  stands : Stands l text t front rest here
  keeps : Keeps front s t
  head : HeadKept front back s rest t
  raised : Raised reach raised stops

namespace Reaches

theorem refl (h : Stands l text s front back here) (reach : Option Nat) :
    Reaches l text front here s back reach [] s back reach :=
  ⟨h, .refl front s, fun _ _ more heq => ⟨⟨more, heq⟩, .refl _ s⟩, .refl reach⟩

theorem trans {between : List Entry} {high : Option Nat} {more : List Nat}
    (h : Reaches l text front here s back reach stops t between raised)
    (h' : Reaches l text front here t between raised more u rest high) :
    Reaches l text front here s back reach (stops ++ more) u rest high := by
  refine ⟨h'.stands, h.keeps.trans h'.keeps, ?_, h.raised.trans h'.raised⟩
  intro cell token more heq
  obtain ⟨⟨next, hnext⟩, hkeeps⟩ := h.head cell token more heq
  obtain ⟨hrest, hkeeps'⟩ := h'.head cell token next hnext
  exact ⟨hrest, hkeeps.trans hkeeps'⟩

/-- What scans do behind `front` and `mid`, they do behind `front`. -/
theorem advance (h : Reaches l text (front ++ mid) there s back reach stops t rest raised)
    (hmid : mid ≠ []) (hstands : Stands l text s front (mid ++ back) here) :
    Reaches l text front here s (mid ++ back) reach stops t (mid ++ rest) raised := by
  refine ⟨h.stands.rewind hstands.text_eq hstands.offset_eq, h.keeps.mono, ?_, h.raised⟩
  intro cell token more heq
  cases mid with
  | nil => exact absurd rfl hmid
  | cons entry mid =>
    rw [List.cons_append, List.cons.injEq] at heq
    refine ⟨⟨mid ++ rest, by rw [List.cons_append, heq.1]⟩, ?_⟩
    have hkeeps := h.keeps
    rw [List.append_cons, heq.1] at hkeeps
    exact hkeeps.mono

end Reaches

/-- What an outcome says about a part of a level that is scanned with patterns before `bound`. -/
structure Leads (l : Level) (text : List Char) (front : List Entry) (here : Cursor)
    (s : TokenStream) (back : List Entry) (reach : Option Nat) (bound : Nat) (o : Outcome) :
    Prop where
  log : o.log.Sound
  applied : ∀ i ∈ o.log.applied, i < bound
  result : ∀ t raised, o.result = .ok (t, raised) →
    ∃ rest, Reaches l text front here s back reach o.log.stops t rest raised

namespace Leads

variable {bound : Nat} {o : Outcome} {log : Log}

theorem stay (h : Stands l text s front back here) (reach : Option Nat) (bound : Nat)
    (hlog : log.Sound) (happlied : log.applied = []) (hstops : log.stops = []) :
    Leads l text front here s back reach bound ⟨.ok (s, reach), log⟩ := by
  refine ⟨hlog, by simp [happlied], ?_⟩
  rintro t raised ⟨⟩
  dsimp only
  rw [hstops]
  exact ⟨back, .refl h reach⟩

theorem fail {e : Fault} (hlog : log.Sound) (happlied : ∀ i ∈ log.applied, i < bound) :
    Leads l text front here s back reach bound ⟨.error e, log⟩ :=
  ⟨hlog, happlied, by simp⟩

theorem mono {high : Nat} (h : Leads l text front here s back reach bound o)
    (hle : bound ≤ high) : Leads l text front here s back reach high o :=
  ⟨h.log, fun i hi => Nat.lt_of_lt_of_le (h.applied i hi) hle, h.result⟩

/-- What has been done before a scan goes on belongs to its outcome. -/
theorem after (h : Leads l text front here t rest raised bound o)
    (hfirst : Reaches l text front here s back reach log.stops t rest raised) (hlog : log.Sound)
    (happlied : ∀ i ∈ log.applied, i < bound) :
    Leads l text front here s back reach bound (o.behind log) := by
  refine ⟨hlog.append h.log, List.forall_mem_append.2 ⟨happlied, h.applied⟩, ?_⟩
  intro u high hresult
  obtain ⟨last, hlast⟩ := h.result u high hresult
  exact ⟨last, hfirst.trans hlast⟩

theorem advance (h : Leads l text (front ++ mid) there s back reach bound o) (hmid : mid ≠ [])
    (hstands : Stands l text s front (mid ++ back) here) :
    Leads l text front here s (mid ++ back) reach bound o := by
  refine ⟨h.log, h.applied, ?_⟩
  intro t raised hresult
  obtain ⟨rest, hrest⟩ := h.result t raised hresult
  exact ⟨mid ++ rest, hrest.advance hmid hstands⟩

end Leads

theorem links_firstOf (h : s.Holds (front ++ back)) (hback : back ≠ []) :
    s.Links (firstOf back) := by
  cases back with
  | nil => exact absurd rfl hback
  | cons entry back => exact ⟨_, h, by simp⟩

/-- The log of a scan that looks at a cell. -/
theorem sound_visit {edits : List (TokenStream × Edit)} {cell : Nat} (hcell : s.Links cell)
    (hedits : ∀ call ∈ edits, call.1.Has call.2.cell) (stops : List Nat) :
    Log.Sound { visits := [(s, cell)], edits := edits, stops := stops } :=
  ⟨hedits, by simpa using hcell, by simp⟩

section Token

variable {new rule : Nat} {token : Node} {stop : Cursor} {o : Outcome}

theorem next_token (h : t.Holds (front ++ (new, token) :: back)) : t.next new = firstOf back := by
  rw [List.append_cons] at h
  have hnext := h.next_lastOf
  rwa [lastOf_concat] at hnext

theorem links_token (h : t.Holds (front ++ (new, token) :: back)) : t.Links new :=
  ⟨_, h, by simp⟩

/-- A scan that has replaced nodes behind `mid`, of which the first is not a token. -/
theorem Reaches.ofToken (h : Stands l text t (front ++ mid) ((new, token) :: rest) there)
    (hstands : Stands l text s front back here) (hkeeps : Keeps front s t)
    (hhead : ∀ cell t more, back ≠ (cell, .token t) :: more)
    (hraised : Raised reach raised stops) :
    Reaches l text front here s back reach stops t (mid ++ (new, token) :: rest) raised :=
  ⟨h.rewind hstands.text_eq hstands.offset_eq, hkeeps,
    fun cell t more heq => absurd heq (hhead cell t more), hraised⟩

/-- A scan goes on behind the token. -/
theorem Stands.behindToken (h : Stands l text t (front ++ mid) ((new, token) :: back) there)
    (htext : stop.text = text) (hstop : stop.offset = there.offset + token.length) :
    Stands l text t (front ++ (mid ++ [(new, token)])) back stop := by
  rw [← List.append_assoc]
  have hover : stop.offset = there.offset + totalLength (valuesOf [(new, token)]) := by
    simpa using hstop
  exact h.over htext hover

/-- A scan that goes on behind its token, seen from where it started. -/
theorem Leads.behindToken (h : Stands l text t (front ++ mid) ((new, token) :: rest) there)
    (hstands : Stands l text s front back here)
    (hscan : Leads l text (front ++ (mid ++ [(new, token)])) stop t rest reach rule o) :
    Leads l text front here t (mid ++ (new, token) :: rest) reach rule o := by
  have hstart := h.rewind hstands.text_eq hstands.offset_eq
  rw [List.append_cons] at hstart ⊢
  exact hscan.advance (by simp) hstart

end Token

section Scan

variable {again : TokenStream → Nat → Cursor → Option Nat → Outcome} {rule : Nat}

theorem scan_leads (hc : c ∈ l.rules)
    (hagain : ∀ s front back here reach, Stands l text s front back here →
      Leads l text front here s back reach rule (again s (lastOf front) here reach))
    (n : Nat) (h : Stands l text s front back here) (reach : Option Nat) :
    Leads l text front here s back reach rule
      (scan l rule c again n s (firstOf back) here reach) := by
  induction n generalizing s front back here reach with
  | zero => exact .stay h reach rule ⟨by simp, by simp, by simp⟩ rfl rfl
  | succ n ih =>
    rw [scan]
    by_cases htail : firstOf back = tail
    · rw [if_pos htail]
      exact .stay h reach rule ⟨by simp, by simp, by simp⟩ rfl rfl
    · have hback : back ≠ [] := by
        rintro rfl
        exact htail rfl
      have hlinks := links_firstOf h.holds hback
      have hturned := turned h hc hback reach
      rw [if_neg htail]
      have htoken : ∀ cell t more, back = (cell, .token t) :: more →
          l.step c ⟨valuesOf back, here, s.len.toNat, reach⟩ = .ok .finish ∨
            ∃ g, l.step c ⟨valuesOf back, here, s.len.toNat, reach⟩ = .ok (.pass [.token t] g) := by
        rintro cell t more rfl
        exact Level.step_token rfl
      generalize turn l c s (firstOf back) here reach = u at hturned ⊢
      generalize l.step c ⟨valuesOf back, here, s.len.toNat, reach⟩ = r at hturned htoken
      cases hturned with
      | finish => exact .stay h reach rule (sound_visit hlinks (by simp) []) rfl rfl
      | fail hedits => exact .fail (sound_visit hlinks hedits []) (by simp)
      | @pass mid rest there heq hmid hrest =>
        subst heq
        exact ((ih hrest reach).advance hmid h).after (.refl h reach)
          (sound_visit hlinks (by simp) []) (by simp)
      | @make h' new b token mid rest htok hstands hvalues hrest hstopText hstop hkeeps hedits
          hlen hlength =>
        have hhead : ∀ cell t more, back ≠ (cell, .token t) :: more := by
          intro cell t more heq
          rcases htoken cell t more heq with hstep | ⟨g, hstep⟩
          · simp at hstep
          · simp at hstep
        have hvisit := sound_visit hlinks hedits [h'.reach]
        dsimp only
        by_cases hcovered : 1 < h'.covered
        · have hprev : b.stream.prev new = lastOf (front ++ mid) := hstands.holds.prev_firstOf
          rw [if_pos hcovered, hprev]
          have hsub := hagain _ _ _ _ (some h'.reach) hstands
          generalize again b.stream (lastOf (front ++ mid)) h'.start (some h'.reach) = o at hsub ⊢
          obtain ⟨result, log⟩ := o
          cases result with
          | error e => exact .fail (hvisit.append hsub.log) hsub.applied
          | ok left =>
            obtain ⟨t, raised⟩ := left
            obtain ⟨rest', hreaches⟩ := hsub.result t raised rfl
            obtain ⟨r, rfl, -, hstops⟩ := hreaches.raised.of_some h'.reach rfl
            obtain ⟨content, rfl, -⟩ := Level.exists_of_token htok
            obtain ⟨⟨more, rfl⟩, hkept⟩ := hreaches.head new _ rest rfl
            have hback := hreaches.stands
            dsimp only
            rw [next_token hback.holds, Option.getD_some]
            have hscan := ih (hback.behindToken hstopText hstop) (raise r (raise h'.reach reach))
            refine (Leads.behindToken hback h hscan).after ?_ ?_ ?_
            · refine .ofToken hback h (hkeeps.trans hreaches.keeps.mono) hhead ?_
              exact ((Raised.raise h'.reach reach (by simp)).trans (.raise r _ hstops)).trans
                (.refl _)
            · refine (hvisit.append hsub.log).append ⟨by simp, ?_, ?_⟩
              · simpa using links_token hback.holds
              · simp only [List.mem_singleton, forall_eq]
                exact ⟨⟨front ++ mid, _, rest, more, hstands.holds, hback.holds, hkept,
                  hstands.offset_eq.symm⟩, hsub.applied, hstops⟩
            · simpa using hsub.applied
        · rw [if_neg hcovered, next_token hstands.holds]
          have hscan := ih (hstands.behindToken hstopText hstop) (raise h'.reach reach)
          refine (Leads.behindToken hstands h hscan).after ?_ ?_ ?_
          · exact .ofToken hstands h hkeeps hhead (.raise h'.reach reach (by simp))
          · refine hvisit.append ⟨by simp, ?_, by simp⟩
            simpa using links_token hstands.holds
          · simp

end Scan

theorem passes_leads (i : Nat) (h : Stands l text s front back here) (reach : Option Nat) :
    Leads l text front here s back reach i (passes l i s (lastOf front) here reach) := by
  induction i generalizing s front back here reach with
  | zero => exact .stay h reach 0 ⟨by simp, by simp, by simp⟩ rfl rfl
  | succ i ih =>
    have hfirst := ih h reach
    rw [passes]
    generalize passes l i s (lastOf front) here reach = o at hfirst ⊢
    obtain ⟨result, log⟩ := o
    cases result with
    | error e => exact hfirst.mono (Nat.le_succ i)
    | ok left =>
      obtain ⟨t, raised⟩ := left
      obtain ⟨rest, hreaches⟩ := hfirst.result t raised rfl
      dsimp only
      cases hc : l.rules[i]? with
      | none => exact hfirst.mono (Nat.le_succ i)
      | some c =>
        have hscan := scan_leads (Array.mem_of_getElem? hc)
          (fun s front back here reach h => ih h reach) (l.bytes + 2) hreaches.stands raised
        dsimp only
        rw [hreaches.stands.holds.next_lastOf]
        refine (hscan.mono (Nat.le_succ i)).after (hreaches.trans (.refl hreaches.stands raised))
          (hfirst.log.append ⟨by simp, by simp, by simp⟩) ?_
        intro j hj
        rcases List.mem_append.1 hj with hj | hj
        · exact Nat.lt_succ_of_lt (hfirst.applied j hj)
        · rw [List.mem_singleton.1 hj]
          exact Nat.lt_succ_self i

/-! ### The run on frames -/

/-- The outcome of a scan behind the nodes `front` is that of a scan on frames, of which the nodes
    `done` belong to the scan already. -/
inductive Same (l : Level) (front done : List Node) :
    Except Fault (TokenStream × Option Nat) → Except Fault Frame → Prop where
  | ok {t : TokenStream} {raised : Option Nat} {g : Frame} {nodes : List Node} :
      t.toList = front ++ nodes → g.nodes = done.reverse ++ nodes → g.count = t.toList.length →
      g.count ≤ l.bytes + 3 → g.reach = raised → Same l front done (.ok (t, raised)) (.ok g)
  | error {e : Fault} : Same l front done (.error e) (.error e)

/-- Nodes that a scan has passed belong to what it returns. -/
theorem Same.push {left passed done : List Node} {r : Except Fault (TokenStream × Option Nat)}
    {r' : Except Fault Frame} (h : Same l (left ++ passed) (passed.reverse ++ done) r r') :
    Same l left done r r' := by
  cases h with
  | error => exact .error
  | ok hlist hnodes hcount hle hreach =>
    rw [List.append_assoc] at hlist
    exact .ok hlist (by simpa using hnodes) hcount hle hreach

/-- The token of a match and what is before it belong to what the scan returns. -/
theorem Same.behindToken {h : Hit} {new : Nat} {token : Node} {done : List Node}
    {r : Except Fault (TokenStream × Option Nat)} {r' : Except Fault Frame}
    (hscan : Same l (valuesOf (front ++ (mid ++ [(new, token)])))
      (token :: ((raw h.before).reverse ++ h.passed.reverse ++ done)) r r')
    (hvalues : valuesOf mid = h.passed ++ raw h.before) : Same l (valuesOf front) done r r' := by
  have hpassed : valuesOf (mid ++ [(new, token)]) = h.passed ++ raw h.before ++ [token] := by
    rw [valuesOf_append, hvalues]
    rfl
  have hpush : Same l (valuesOf front ++ valuesOf (mid ++ [(new, token)]))
      ((valuesOf (mid ++ [(new, token)])).reverse ++ done) r r' := by
    rw [← valuesOf_append, hpassed]
    simpa using hscan
  exact hpush.push

theorem length_behind {entry : Entry} :
    (front ++ (mid ++ [entry]) ++ back).length = (front ++ mid ++ entry :: back).length := by
  rw [← List.append_assoc, List.append_assoc _ [entry], List.singleton_append]

theorem Same.stay {done : List Node} (h : s.Holds (front ++ back)) (here : Cursor)
    (reach : Option Nat) (hcount : (front ++ back).length ≤ l.bytes + 3) :
    Same l (valuesOf front) done (.ok (s, reach))
      (.ok ⟨done.reverse ++ valuesOf back, here, (front ++ back).length, reach⟩) := by
  have hlist := h.toList_eq
  refine .ok (by rw [hlist, valuesOf_append]) rfl ?_ hcount rfl
  rw [hlist, length_valuesOf]

theorem length_raw_le (cs : List Char) : (raw cs).length ≤ 1 := by
  unfold raw
  split
  · exact Nat.zero_le 1
  · exact Nat.le_refl 1

theorem firstOf_ne_tail (h : s.Holds (front ++ back)) (hback : back ≠ []) :
    firstOf back ≠ tail := by
  cases back with
  | nil => exact absurd rfl hback
  | cons entry back =>
    have htail := h.tail_notMem_back
    rw [cellsOf_cons, List.mem_cons, not_or] at htail
    exact Ne.symm htail.1

section Scan

variable {again : TokenStream → Nat → Cursor → Option Nat → Outcome}
  {again' : Frame → Except Fault Frame} {rule : Nat}

theorem scan_same (hbytes : l.bytes + 3 < UInt64.size) (hc : c ∈ l.rules)
    (hleads : ∀ s front back here reach, Stands l text s front back here →
      Leads l text front here s back reach rule (again s (lastOf front) here reach))
    (hagain : ∀ s front back here reach, Stands l text s front back here →
      (front ++ back).length ≤ l.bytes + 3 →
      Same l (valuesOf front) [] (again s (lastOf front) here reach).result
        (again' ⟨valuesOf back, here, (front ++ back).length, reach⟩))
    (n : Nat) (done : List Node) (h : Stands l text s front back here) (reach : Option Nat)
    (hcount : (front ++ back).length ≤ l.bytes + 3) :
    Same l (valuesOf front) done (scan l rule c again n s (firstOf back) here reach).result
      (l.scan c again' n done ⟨valuesOf back, here, (front ++ back).length, reach⟩) := by
  induction n generalizing s front back here reach done with
  | zero => exact .stay h.holds here reach hcount
  | succ n ih =>
    rw [scan, Level.scan_succ]
    by_cases hback : back = []
    · subst hback
      exact .stay h.holds here reach hcount
    · have hlen : s.len.toNat = (front ++ back).length :=
        h.holds.toNat_len (Nat.lt_of_le_of_lt hcount hbytes)
      have hturned := turned h hc hback reach
      rw [hlen] at hturned
      rw [if_neg (firstOf_ne_tail h.holds hback)]
      generalize turn l c s (firstOf back) here reach = u at hturned ⊢
      generalize l.step c ⟨valuesOf back, here, (front ++ back).length, reach⟩ = r at hturned ⊢
      cases hturned with
      | finish => exact .stay h.holds here reach hcount
      | fail => exact .error
      | @pass mid rest there heq hmid hrest =>
        subst heq
        rw [← List.append_assoc] at hcount
        have hscan := ih ((valuesOf mid).reverse ++ done) hrest reach hcount
        rw [valuesOf_append] at hscan
        dsimp only
        rw [hlen, ← List.append_assoc]
        exact hscan.push
      | @make h' new b token mid rest htok hstands hvalues hrest hstopText hstop _ _ hlen' hlength =>
        have hbefore := length_raw_le h'.before
        have hafter := length_raw_le h'.after
        have hnew : (front ++ mid ++ (new, token) :: rest).length ≤ l.bytes + 3 := by omega
        have hcountAfter : Frame.countAfter ⟨valuesOf back, here, (front ++ back).length, reach⟩ h' =
            (front ++ mid ++ (new, token) :: rest).length := by
          dsimp only [Frame.countAfter]
          omega
        dsimp only
        by_cases hcovered : 1 < h'.covered
        · have hprev : b.stream.prev new = lastOf (front ++ mid) := hstands.holds.prev_firstOf
          rw [if_pos hcovered, if_pos hcovered, hprev, Frame.again, hcountAfter, ← hrest]
          have hsub := hagain _ _ _ _ (some h'.reach) hstands hnew
          have hlead := hleads _ _ _ _ (some h'.reach) hstands
          rw [valuesOf_cons] at hsub
          dsimp only at hsub ⊢
          generalize again b.stream (lastOf (front ++ mid)) h'.start (some h'.reach) = o
            at hsub hlead ⊢
          obtain ⟨result, log⟩ := o
          dsimp only at hsub ⊢
          generalize again' _ = r at hsub ⊢
          cases hsub with
          | error => exact .error
          | @ok t raised g nodes hlist hnodes hcount' hle hreach =>
            obtain ⟨rest', hreaches⟩ := hlead.result t raised rfl
            obtain ⟨content, rfl, -⟩ := Level.exists_of_token htok
            generalize Token.mk c.kind content c.pattern.aliases _ = token at *
            obtain ⟨⟨more, rfl⟩, -⟩ := hreaches.head new token rest rfl
            have hback := hreaches.stands
            have hscan := ih
              (.token token :: ((raw h'.before).reverse ++ h'.passed.reverse ++ done))
              (hback.behindToken hstopText hstop) (raise (raised.getD 0) (raise h'.reach reach))
            -- the frame holds the token and the values that are behind it in the stream
            have hall := hback.holds.toList_eq
            rw [hall, length_valuesOf] at hcount'
            rw [hall, valuesOf_append] at hlist
            obtain rfl := List.append_cancel_left hlist
            obtain ⟨nodes, there, count, high⟩ := g
            dsimp only at hnodes hcount' hle hreach ⊢
            subst hnodes hcount' hreach
            rw [length_behind] at hscan
            rw [next_token hback.holds]
            exact (hscan hle).behindToken hvalues
        · rw [if_neg hcovered, if_neg hcovered, next_token hstands.holds]
          have hscan := ih (token :: ((raw h'.before).reverse ++ h'.passed.reverse ++ done))
            (hstands.behindToken hstopText hstop) (raise h'.reach reach)
          rw [length_behind] at hscan
          dsimp only [Frame.behind]
          rw [hcountAfter, ← hrest]
          exact (hscan hnew).behindToken hvalues

end Scan

theorem passes_same (hbytes : l.bytes + 3 < UInt64.size) (i : Nat)
    (h : Stands l text s front back here) (reach : Option Nat)
    (hcount : (front ++ back).length ≤ l.bytes + 3) :
    Same l (valuesOf front) [] (passes l i s (lastOf front) here reach).result
      (l.passes i ⟨valuesOf back, here, (front ++ back).length, reach⟩) := by
  induction i generalizing s front back here reach with
  | zero => exact .stay h.holds here reach hcount
  | succ i ih =>
    have hfirst := ih h reach hcount
    have hlead := passes_leads i h reach
    rw [passes, Level.passes_succ]
    have hhere : ∀ g, l.passes i ⟨valuesOf back, here, (front ++ back).length, reach⟩ = .ok g →
        g.here = here := fun g hg => Level.here_of_passes hg
    generalize l.passes i ⟨valuesOf back, here, (front ++ back).length, reach⟩ = r
      at hfirst hhere ⊢
    generalize passes l i s (lastOf front) here reach = o at hfirst hlead ⊢
    obtain ⟨result, log⟩ := o
    dsimp only at hfirst ⊢
    cases hfirst with
    | error => exact .error
    | @ok t raised g nodes hlist hnodes hcount' hle hreach =>
      dsimp only
      cases hc : l.rules[i]? with
      | none => exact .ok hlist hnodes hcount' hle hreach
      | some c =>
        obtain ⟨rest, hreaches⟩ := hlead.result t raised rfl
        have hall := hreaches.stands.holds.toList_eq
        rw [hall, length_valuesOf] at hcount'
        rw [hall, valuesOf_append] at hlist
        obtain rfl := List.append_cancel_left hlist
        have hstart := hhere g rfl
        obtain ⟨nodes, there, count, high⟩ := g
        dsimp only at hnodes hcount' hle hreach hstart ⊢
        subst hnodes hcount' hreach hstart
        have hscan := scan_same hbytes (Array.mem_of_getElem? hc)
          (fun s front back here reach h => passes_leads i h reach)
          (fun s front back here reach h => ih h reach) (l.bytes + 2) [] hreaches.stands high hle
        rw [hreaches.stands.holds.next_lastOf]
        dsimp only [Outcome.behind]
        rw [List.reverse_nil, List.nil_append]
        generalize l.scan c (l.passes i) (l.bytes + 2) [] _ = r at hscan ⊢
        generalize (scan l i c (passes l i) (l.bytes + 2) t (firstOf rest) there high).result = r'
          at hscan ⊢
        cases hscan with
        | error => exact .error
        | ok hlist hnodes hcount hle hreach => exact .ok hlist hnodes hcount hle hreach

theorem stands_opening (l : Level) (text : List Char) :
    ∃ back, Stands l text (opening text) [] back (Cursor.start text) ∧
      valuesOf back = Level.opening text := by
  have hempty : empty.Holds ([] ++ []) := holds_empty
  refine ⟨_, ⟨hempty.insertAfter _, Cursor.text_start text, rfl, ?_⟩, rfl⟩
  exact (Level.At.opening l text).covers

/-- The run of a level on a stream is the run of the level, as long as the nodes of the stream can
    be counted in 64 bits. -/
theorem values_run (hbytes : l.bytes + 3 < UInt64.size) :
    (run l text).result.map (fun left => left.1.toList) = l.run text := by
  obtain ⟨back, hstands, hback⟩ := stands_opening l text
  have hlength : back.length = 1 := by
    rw [← length_valuesOf, hback]
    rfl
  have hsame := passes_same hbytes l.rules.size hstands none (by simp [hlength])
  rw [List.nil_append, hlength, hback] at hsame
  rw [Level.run_eq, run]
  generalize l.passes l.rules.size _ = r at hsame ⊢
  rw [lastOf_nil] at hsame
  generalize (passes l l.rules.size (opening text) head (Cursor.start text) none).result = r'
    at hsame ⊢
  cases hsame with
  | error => rfl
  | ok hlist hnodes =>
    rw [valuesOf_nil, List.nil_append] at hlist
    rw [List.reverse_nil, List.nil_append] at hnodes
    rw [Except.map, Except.map, hlist, hnodes]

/-- In a run of a level on its stream, whatever is scanned again is confined to what follows its
    token, every call is made behind the head or a linked cell, and scans look at linked cells only.
    It is the run of the level, as long as its nodes can be counted in 64 bits. -/
theorem sound_run (l : Level) (text : List Char) :
    (run l text).log.Sound ∧
      (l.bytes + 3 < UInt64.size →
        (run l text).result.map (fun left => left.1.toList) = l.run text) := by
  obtain ⟨back, hstands, -⟩ := stands_opening l text
  exact ⟨(passes_leads l.rules.size hstands none).log, values_run⟩

end Splice

end Tokenizer

end SyntaxHue
