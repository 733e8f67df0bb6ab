import SyntaxHue.Proofs.Regex.Behaviour

/-!
# What programs with a way back do

A thread of the machine is a program in progress, so it can end in what its tasks can lead to.
Every move keeps to that: what the next thread, or the branch that is put aside, can end in was
open to the thread before. Atomic parts and refusals only take ways away.
-/

namespace SyntaxHue

namespace Program

/-- What a program does. -/
def does (ctx : Backtracking.Context) : Program → Behaviour
  | .empty | .refuse _ => .skip
  | .one set => .move (Cursor.eat? set)
  | .assertion a => .check fun x => a.holds x.here
  | .part p => fun x y =>
    ∃ o, p.first ctx.bytes x.here = some o ∧ y = ⟨o.here, o.slots.copyGroups p.groups x.slots⟩
  | .seq a b => .seq (a.does ctx) (b.does ctx)
  | .alt a b => .alt (a.does ctx) (b.does ctx)
  | .group n e => .group n (e.does ctx)
  | .star _ e | .times _ _ _ e | .passes _ _ e => .star (e.does ctx)
  | .atomic e => e.does ctx
  | .stay e => fun x y => ∃ z, e.does ctx x z ∧ y = ⟨x.here, z.slots⟩
  | .back width => .move (·.backBy? width)
  | .backOver p ahead => fun x y =>
    ∃ o, p.firstBack x.here = some o ∧
      match ahead with
      | none => y = ⟨o.here, x.slots⟩
      | some ahead => ∃ found, ahead.first x.here.offset o.here = some found ∧
          y = ⟨o.here, found.slots.copyGroups ahead.groups x.slots⟩
  | .backref n anyCase => fun x y =>
    ∃ s there, x.slots.span? n = some s ∧
      Backtracking.eatAgain? s.chars anyCase x.here = some there ∧ y = ⟨there, x.slots⟩
  | .keepOut => .note 0
  | .searchStart => .check fun x => x.here.offset ≤ ctx.origin
  | .isSet n => .check fun x => x.slots.entered n
  | .cond test yes no => .alt (.seq (test.does ctx) (yes.does ctx)) (no.does ctx)

end Program

namespace Backtracking

variable {ctx : Context}

/-- What is still to be done. A refusal fails, and a loop may stop at any time. -/
def Task.does (ctx : Context) : Task → Behaviour
  | .run e => e.does ctx
  | .note slot => .note slot
  | .times _ _ _ e _ | .passes _ _ e _ _ => .star (e.does ctx)
  | .commit => .skip
  | .resume c => fun x y => y = ⟨c, x.slots⟩
  | .refuse _ => fun _ _ => False

/-- What tasks do, one after the other. -/
def doAll (ctx : Context) : List Task → Behaviour
  | [] => .skip
  | task :: tasks => .seq (task.does ctx) (doAll ctx tasks)

/-- The ways in which a thread can end. -/
def Thread.ends (ctx : Context) (t : Thread) (o : Regular.Outcome) : Prop :=
  doAll ctx t.tasks ⟨t.here, t.slots⟩ o

/-- Whether a move leaves open that the search ends in `o`. -/
def Move.ends (ctx : Context) (o : Regular.Outcome) : Move → Prop
  | .go t | .commit _ t => t.ends ctx o
  | .choose t other => t.ends ctx o ∨ other.ends ctx o
  | .fail | .refuse _ | .crossed => False
  | .done here slots => o = ⟨here, slots⟩

section

variable {depth : Nat} {t : Thread} {rest again : List Task} {o : Regular.Outcome}

theorem ends_of_move {f : Cursor → Option Cursor} (h : (t.move rest (f t.here)).ends ctx o) :
    Behaviour.seq (.move f) (doAll ctx rest) ⟨t.here, t.slots⟩ o := by
  cases hthere : f t.here with
  | none => simp [Thread.move, hthere, Move.ends] at h
  | some there =>
    rw [hthere] at h
    exact Behaviour.move_seq hthere h

theorem ends_of_check {p : Regular.Outcome → Bool}
    (h : (t.check rest (p ⟨t.here, t.slots⟩)).ends ctx o) :
    Behaviour.seq (.check p) (doAll ctx rest) ⟨t.here, t.slots⟩ o := by
  cases hp : p ⟨t.here, t.slots⟩ with
  | false => simp [Thread.check, hp, Move.ends] at h
  | true =>
    rw [hp] at h
    exact Behaviour.check_seq hp h

theorem ends_of_loop {greedy : Bool} (h : (t.loop greedy again rest).ends ctx o) :
    doAll ctx again ⟨t.here, t.slots⟩ o ∨ doAll ctx rest ⟨t.here, t.slots⟩ o := by
  cases greedy with
  | true => exact h
  | false => exact h.symm

theorem ends_of_begin {e : Program} (h : (begin ctx depth t rest e).ends ctx o) :
    Behaviour.seq (e.does ctx) (doAll ctx rest) ⟨t.here, t.slots⟩ o := by
  cases e with
  | empty => exact Behaviour.skip_seq h
  | one set => exact ends_of_move h
  | assertion a => exact ends_of_check (p := fun x => a.holds x.here) h
  | part p =>
    simp only [begin] at h
    split at h
    · rename_i found hfound
      exact ⟨_, ⟨found, hfound, rfl⟩, h⟩
    · exact h.elim
  | seq a b => exact Behaviour.seq_assoc h
  | alt a b =>
    rcases h with h | h
    · exact Behaviour.alt_seq_left h
    · exact Behaviour.alt_seq_right h
  | group n e => exact Behaviour.group_seq h
  | star greedy e =>
    rcases ends_of_loop h with h | h
    · exact Behaviour.star_seq_again h
    · exact Behaviour.star_seq_done h
  | times lo hi greedy e => exact h
  | passes lo greedy e => exact h
  | atomic e =>
    obtain ⟨z, he, w, hskip, hrest⟩ := h
    cases hskip
    exact ⟨z, he, hrest⟩
  | stay e =>
    obtain ⟨z, he, w, hresume, hrest⟩ := h
    exact ⟨w, ⟨z, he, hresume⟩, hrest⟩
  | refuse e =>
    rcases h with h | h
    · obtain ⟨z, -, w, hrefuse, -⟩ := h
      exact hrefuse.elim
    · exact Behaviour.skip_seq h
  | back width => exact ends_of_move (f := (·.backBy? width)) h
  | backOver p ahead =>
    simp only [begin, Thread.backOver] at h
    split at h
    · exact h.elim
    · rename_i found hfound
      exact ⟨_, ⟨found, hfound, rfl⟩, h⟩
    · rename_i found ahead hfound
      split at h
      · rename_i groups hgroups
        exact ⟨_, ⟨found, hfound, groups, hgroups, rfl⟩, h⟩
      · exact h.elim
  | backref n anyCase =>
    simp only [begin] at h
    split at h
    · rename_i s hs
      split at h
      · exact h.elim
      · obtain ⟨y, ⟨there, hthere, rfl⟩, hrest⟩ := ends_of_move h
        exact ⟨_, ⟨s, there, hs, hthere, rfl⟩, hrest⟩
    · exact h.elim
  | keepOut => exact Behaviour.note_seq h
  | searchStart => exact ends_of_check (p := fun x => x.here.offset ≤ ctx.origin) h
  | isSet n => exact ends_of_check (p := fun x => x.slots.entered n) h
  | cond test yes no =>
    rcases h with h | h
    · obtain ⟨y, htest, z, hskip, hrest⟩ := h
      cases hskip
      exact Behaviour.alt_seq_left (Behaviour.seq_assoc ⟨y, htest, hrest⟩)
    · exact Behaviour.alt_seq_right h

/-- A move opens no way that the thread did not have. -/
theorem ends_of_step (h : (step ctx depth t).ends ctx o) : t.ends ctx o := by
  obtain ⟨tasks, here, slots, cuts⟩ := t
  cases tasks with
  | nil => exact h
  | cons task rest =>
    cases task with
    | run e => exact ends_of_begin h
    | note slot => exact Behaviour.note_seq h
    | times lo hi greedy e count =>
      simp only [step] at h
      split at h
      · exact Behaviour.star_seq_done h
      · split at h
        · exact Behaviour.star_seq_again h
        · rcases ends_of_loop h with h | h
          · exact Behaviour.star_seq_again h
          · exact Behaviour.star_seq_done h
    | passes lo greedy e count mark =>
      simp only [step] at h
      split at h
      · exact Behaviour.star_seq_done h
      · split at h
        · exact Behaviour.star_seq_again h
        · rcases ends_of_loop h with h | h
          · exact Behaviour.star_seq_again h
          · exact Behaviour.star_seq_done h
    | commit =>
      simp only [step] at h
      cases cuts <;> exact Behaviour.skip_seq h
    | resume c => exact ⟨_, rfl, h⟩
    | refuse depth => exact h.elim

end

/-- Whether one of the threads can end in `o`. -/
def Ends (ctx : Context) (stack : List Thread) (o : Regular.Outcome) : Prop :=
  ∃ t ∈ stack, t.ends ctx o

theorem Ends.of_drop {stack : List Thread} {o : Regular.Outcome} {n : Nat}
    (h : Ends ctx (stack.drop n) o) : Ends ctx stack o := by
  obtain ⟨t, ht, hends⟩ := h
  exact ⟨t, List.mem_of_mem_drop ht, hends⟩

theorem Ends.cons {stack : List Thread} {o : Regular.Outcome} {t : Thread}
    (h : Ends ctx stack o) : Ends ctx (t :: stack) o := by
  obtain ⟨u, hu, hends⟩ := h
  exact ⟨u, List.mem_cons_of_mem _ hu, hends⟩

theorem ends_of_spend {next : Nat → Thread → List Thread → Result × Nat} {budget left : Nat}
    {stack : List Thread} {here : Cursor} {slots : Slots}
    (hnext : ∀ budget t stack, next budget t stack = (.found here slots, left) →
      Ends ctx (t :: stack) ⟨here, slots⟩)
    (h : spend next budget stack = (.found here slots, left)) : Ends ctx stack ⟨here, slots⟩ := by
  unfold spend at h
  split at h
  · simp at h
  · simp at h
  · exact hnext _ _ _ h

/-- What a run finds is the end of one of its threads. -/
theorem ends_of_run {fuel budget depth left : Nat} {t : Thread} {stack : List Thread}
    {here : Cursor} {slots : Slots}
    (h : run ctx fuel budget depth t stack = (.found here slots, left)) :
    Ends ctx (t :: stack) ⟨here, slots⟩ := by
  induction fuel generalizing budget depth t stack with
  | zero => simp [run] at h
  | succ fuel ih =>
    simp only [run] at h
    have hstep : ∀ m, step ctx depth t = m → m.ends ctx ⟨here, slots⟩ →
        Ends ctx (t :: stack) ⟨here, slots⟩ := by
      intro m hm hends
      subst hm
      exact ⟨t, List.mem_cons_self, ends_of_step hends⟩
    split at h
    · rename_i u hu
      obtain ⟨v, hv, hends⟩ := ih h
      rcases List.mem_cons.1 hv with rfl | hv
      · exact hstep _ hu hends
      · exact Ends.cons ⟨v, hv, hends⟩
    · rename_i u other hu
      split at h
      · obtain ⟨v, hv, hends⟩ := ih h
        rcases List.mem_cons.1 hv with rfl | hv
        · exact hstep _ hu (.inl hends)
        · rcases List.mem_cons.1 hv with rfl | hv
          · exact hstep _ hu (.inr hends)
          · exact Ends.cons ⟨v, hv, hends⟩
      · simp at h
    · rename_i cut u hu
      obtain ⟨v, hv, hends⟩ := ih h
      rcases List.mem_cons.1 hv with rfl | hv
      · exact hstep _ hu hends
      · exact (Ends.of_drop ⟨v, hv, hends⟩).cons
    · exact (ends_of_spend (fun _ _ _ => ih) h).cons
    · exact (ends_of_spend (fun _ _ _ => ih) h).of_drop.cons
    · rename_i there found hu
      simp only [Prod.mk.injEq, Result.found.injEq] at h
      obtain ⟨⟨rfl, rfl⟩, -⟩ := h
      exact hstep _ hu rfl
    · simp at h

end Backtracking

end SyntaxHue
