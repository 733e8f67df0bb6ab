import SyntaxHue.Proofs.Tokenizer.Rescan

/-!
# What every moment of a run has

A run changes its stream at the turns of its scans only. What the stream of a level has at first and
no turn takes from it is therefore had wherever a scan looks at a cell, in the main pass and in all
that is scanned again, and what every turn sees to holds of all calls that change the stream.
-/

namespace SyntaxHue

namespace Tokenizer

namespace Splice

open TokenStream

variable {I : TokenStream → Prop} {E : TokenStream × Edit → Prop}

/-- Scans look at streams that have `I`, and the calls that change streams have `E`. -/
structure Log.All (I : TokenStream → Prop) (E : TokenStream × Edit → Prop) (log : Log) : Prop where
  visits : ∀ visit ∈ log.visits, I visit.1
  edits : ∀ call ∈ log.edits, E call

/-- All that an outcome logs is as it should be, and so is the stream that it leaves. -/
structure Outcome.All (I : TokenStream → Prop) (E : TokenStream × Edit → Prop) (o : Outcome) :
    Prop where
  log : o.log.All I E
  result : ∀ t raised, o.result = .ok (t, raised) → I t

/-- What a turn has done to its stream. -/
def Turn.All (I : TokenStream → Prop) (E : TokenStream × Edit → Prop) : Turn → Prop
  | .finish => True
  | .pass _ _ => True
  | .fail _ edits => ∀ call ∈ edits, E call
  | .make _ _ b => I b.stream ∧ ∀ call ∈ b.edits, E call

theorem Log.All.append {a b : Log} (ha : a.All I E) (hb : b.All I E) : (a ++ b).All I E where
  visits := List.forall_mem_append.2 ⟨ha.visits, hb.visits⟩
  edits := List.forall_mem_append.2 ⟨ha.edits, hb.edits⟩

variable {l : Level} {text : List Char} {s t : TokenStream} {front back : List Entry}
  {here : Cursor} {c : Candidate}

namespace Outcome.All

variable {o : Outcome} {log : Log}

theorem stay (hs : I s) (reach : Option Nat) (hlog : log.All I E) :
    Outcome.All I E ⟨.ok (s, reach), log⟩ := by
  refine ⟨hlog, ?_⟩
  rintro t raised ⟨⟩
  exact hs

theorem fail (e : Fault) (hlog : log.All I E) : Outcome.All I E ⟨.error e, log⟩ :=
  ⟨hlog, by simp⟩

theorem behind (h : o.All I E) (hlog : log.All I E) : (o.behind log).All I E :=
  ⟨hlog.append h.log, h.result⟩

end Outcome.All

/-- The log of a scan that looks at a cell of a stream. -/
theorem all_visit {log : Log} {cell : Nat} (hs : I s) (hvisits : log.visits = [(s, cell)])
    (hedits : ∀ call ∈ log.edits, E call) : log.All I E := by
  refine ⟨?_, hedits⟩
  rw [hvisits]
  simpa using hs

/-- The turns of a level keep `I`, and make only calls with `E`. -/
def Keeping (I : TokenStream → Prop) (E : TokenStream × Edit → Prop) (l : Level)
    (text : List Char) : Prop :=
  ∀ c ∈ l.rules, ∀ s front back here reach, Stands l text s front back here → back ≠ [] → I s →
    (turn l c s (firstOf back) here reach).All I E

/-- The pattern of `c` has a hit where a scan has come to, in a level with no more nodes than
    bytes. The hit replaces `gone`. -/
structure Strikes (l : Level) (text : List Char) (c : Candidate) (s : TokenStream)
    (front back : List Entry) (here : Cursor) (hit : Hit) (gone : List Node) : Prop where
  stands : Stands l text s front back here
  fits : hit.Fits c.pattern (valuesOf back) here gone
  look_eq : ∃ u more, valuesOf back = .text u :: more ∧ look c.pattern u more here = .ok (.hit hit)
  len_le : s.len.toNat ≤ l.bytes

/-- A turn that is no end and passes no cell looks up a pattern and replaces what it has found. -/
theorem turn_inv (h : Stands l text s front back here) (hback : back ≠ []) (c : Candidate)
    (reach : Option Nat) :
    (∃ hit gone, Strikes l text c s front back here hit gone ∧
      turn l c s (firstOf back) here reach = replace l c s (firstOf back) hit) ∨
    turn l c s (firstOf back) here reach = .finish ∨
    (∃ cell there, turn l c s (firstOf back) here reach = .pass cell there) ∨
    ∃ e, turn l c s (firstOf back) here reach = .fail e [] := by
  cases back with
  | nil => exact absurd rfl hback
  | cons entry rest =>
  obtain ⟨cell, value⟩ := entry
  have hvalue := h.holds.value (cell, value) (List.mem_append_right _ List.mem_cons_self)
  have hcovers := (h.at reach).covers_nodes
  have hholds := h.holds
  rw [List.append_cons] at hholds
  dsimp only at hvalue hcovers
  rw [valuesOf_cons] at hcovers
  rw [turn, firstOf_cons, next_token h.holds]
  dsimp only
  rw [hvalue, hholds.valuesFrom_firstOf]
  by_cases hstop : reach.any (· ≤ here.offset) || l.bytes < s.len.toNat
  · rw [if_pos hstop]
    exact Or.inr (Or.inl rfl)
  · rw [if_neg hstop]
    have hlen : s.len.toNat ≤ l.bytes := by
      simp only [Bool.or_eq_true, decide_eq_true_eq, not_or] at hstop
      exact Nat.le_of_not_lt hstop.2
    cases value with
    | token t => exact Or.inr (Or.inr (Or.inl ⟨_, _, rfl⟩))
    | text fragment =>
      dsimp only at hcovers ⊢
      cases hlook : look c.pattern fragment (valuesOf rest) here with
      | error e => exact Or.inr (Or.inr (Or.inr ⟨e, rfl⟩))
      | ok r =>
      have hfits := fits_of_look hcovers hlook
      cases r with
      | stop => exact Or.inr (Or.inl rfl)
      | skip passed left there => exact Or.inr (Or.inr (Or.inl ⟨_, _, rfl⟩))
      | hit hit =>
        obtain ⟨gone, hfits⟩ := hfits
        exact Or.inl ⟨hit, gone, ⟨h, hfits, ⟨fragment, _, rfl, hlook⟩, hlen⟩, rfl⟩

/-- Only what is replaced matters to a stream. -/
theorem keeping_of_replace (hreplace : ∀ c ∈ l.rules, ∀ s front back here hit gone,
      Strikes l text c s front back here hit gone → I s →
      (replace l c s (firstOf back) hit).All I E) :
    Keeping I E l text := by
  intro c hc s front back here reach h hback hs
  rcases turn_inv h hback c reach with ⟨hit, gone, hstrikes, heq⟩ | heq | ⟨_, _, heq⟩ | ⟨e, heq⟩
  · rw [heq]
    exact hreplace c hc s front back here hit gone hstrikes hs
  · rw [heq]
    trivial
  · rw [heq]
    trivial
  · rw [heq]
    exact List.forall_mem_nil E

section Scan

variable {again : TokenStream → Nat → Cursor → Option Nat → Outcome} {rule : Nat}

theorem scan_all (hturn : Keeping I E l text) (hc : c ∈ l.rules)
    (hleads : ∀ s front back here reach, Stands l text s front back here →
      Leads l text front here s back reach rule (again s (lastOf front) here reach))
    (hagain : ∀ s front back here reach, Stands l text s front back here → I s →
      (again s (lastOf front) here reach).All I E)
    (n : Nat) (h : Stands l text s front back here) (hs : I s) (reach : Option Nat) :
    (scan l rule c again n s (firstOf back) here reach).All I E := by
  induction n generalizing s front back here reach with
  | zero => exact .stay hs reach ⟨by simp, by simp⟩
  | succ n ih =>
    rw [scan]
    by_cases hback : back = []
    · subst hback
      exact .stay hs reach ⟨by simp, by simp⟩
    · have hturned := turned h hc hback reach
      have hall := hturn c hc s front back here reach h hback hs
      rw [if_neg (firstOf_ne_tail h.holds hback)]
      generalize turn l c s (firstOf back) here reach = u at hturned hall ⊢
      generalize l.step c ⟨valuesOf back, here, s.len.toNat, reach⟩ = r at hturned
      cases hturned with
      | finish => exact .stay hs reach (all_visit hs rfl (by simp))
      | fail => exact .fail _ (all_visit hs rfl hall)
      | pass heq _ hrest => exact (ih hrest hs reach).behind (all_visit hs rfl (by simp))
      | @make h' new b token mid rest htok hstands _ _ hstopText hstop =>
        obtain ⟨hnew, hedits⟩ := hall
        have hvisit : Log.All I E
            { visits := [(s, firstOf back)], edits := b.edits, stops := [h'.reach] } :=
          all_visit hs rfl hedits
        dsimp only
        by_cases hcovered : 1 < h'.covered
        · have hprev : b.stream.prev new = lastOf (front ++ mid) := hstands.holds.prev_firstOf
          rw [if_pos hcovered, hprev]
          have hsub := hagain _ _ _ _ (some h'.reach) hstands hnew
          have hlead := hleads _ _ _ _ (some h'.reach) hstands
          generalize again b.stream (lastOf (front ++ mid)) h'.start (some h'.reach) = o
            at hsub hlead ⊢
          obtain ⟨result, log⟩ := o
          cases result with
          | error e => exact .fail e (hvisit.append hsub.log)
          | ok left =>
            obtain ⟨t, raised⟩ := left
            obtain ⟨rest', hreaches⟩ := hlead.result t raised rfl
            obtain ⟨content, rfl, -⟩ := Level.exists_of_token htok
            obtain ⟨⟨more, rfl⟩, -⟩ := hreaches.head new _ rest rfl
            have hbehind := hreaches.stands
            have ht := hsub.result t raised rfl
            dsimp only
            rw [next_token hbehind.holds]
            refine (ih (hbehind.behindToken hstopText hstop) ht _).behind ?_
            exact (hvisit.append hsub.log).append (all_visit ht rfl (by simp))
        · rw [if_neg hcovered, next_token hstands.holds]
          refine (ih (hstands.behindToken hstopText hstop) hnew _).behind ?_
          exact hvisit.append (all_visit hnew rfl (by simp))

end Scan

theorem passes_all (hturn : Keeping I E l text) (i : Nat) (h : Stands l text s front back here)
    (hs : I s) (reach : Option Nat) : (passes l i s (lastOf front) here reach).All I E := by
  induction i generalizing s front back here reach with
  | zero => exact .stay hs reach ⟨by simp, by simp⟩
  | succ i ih =>
    have hfirst := ih h hs reach
    have hlead := passes_leads i h reach
    rw [passes]
    generalize passes l i s (lastOf front) here reach = o at hfirst hlead ⊢
    obtain ⟨result, log⟩ := o
    cases result with
    | error e => exact hfirst
    | ok left =>
      obtain ⟨t, raised⟩ := left
      obtain ⟨rest, hreaches⟩ := hlead.result t raised rfl
      dsimp only
      cases hc : l.rules[i]? with
      | none => exact hfirst
      | some c =>
        have hscan := scan_all hturn (Array.mem_of_getElem? hc)
          (fun s front back here reach h => passes_leads i h reach)
          (fun s front back here reach h hs => ih h hs reach) (l.bytes + 2) hreaches.stands
          (hfirst.result t raised rfl) raised
        dsimp only
        rw [hreaches.stands.holds.next_lastOf]
        exact hscan.behind (hfirst.log.append ⟨by simp, by simp⟩)

/-- What the raw text of a level has and its turns keep is had at every moment of its run. -/
theorem run_all (hturn : Keeping I E l text) (hopening : I (opening text)) :
    (run l text).All I E := by
  obtain ⟨back, hstands, -⟩ := stands_opening l text
  exact passes_all hturn l.rules.size hstands hopening none

end Splice

end Tokenizer

end SyntaxHue
