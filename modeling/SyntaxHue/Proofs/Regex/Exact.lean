import SyntaxHue.Proofs.Regex.Leftmost

/-!
# Searches with a way back that are exact

`Program.does` leaves out what atomic parts and refusals take away. For programs of characters,
assertions, choices, groups and loops, with refusals of regular parts only, nothing has to be left
out: as long as a search does not give up, it finds the leftmost place where the program has a
match, and finds nothing only if there is none.
-/

namespace SyntaxHue

namespace Program

/-- Whether a program has no parts but those that an exact account is given of. -/
def simple : Program → Bool
  | .empty | .one _ | .assertion _ | .refuse (.part _) => true
  | .seq a b | .alt a b => a.simple && b.simple
  | .group _ e | .star _ e => e.simple
  | _ => false

/-- What a simple program does. -/
def exact (ctx : Backtracking.Context) : Program → Behaviour
  | .one set => .move (Cursor.eat? set)
  | .assertion a => .check fun x => a.holds x.here
  | .refuse (.part p) => .check fun x => (p.first ctx.bytes x.here).isNone
  | .seq a b => .seq (a.exact ctx) (b.exact ctx)
  | .alt a b => .alt (a.exact ctx) (b.exact ctx)
  | .group n e => .group n (e.exact ctx)
  | .star _ e => .star (e.exact ctx)
  | _ => .skip

end Program

namespace Behaviour

variable {a b c : Behaviour} {x y : Regular.Outcome}

theorem seq_assoc_iff : seq (seq a b) c x y ↔ seq a (seq b c) x y := by
  constructor
  · rintro ⟨v, ⟨u, ha, hb⟩, hc⟩
    exact ⟨u, ha, v, hb, hc⟩
  · exact seq_assoc

theorem alt_seq_iff : seq (alt a b) c x y ↔ seq a c x y ∨ seq b c x y := by
  constructor
  · rintro ⟨u, ha | hb, hc⟩
    · exact .inl ⟨u, ha, hc⟩
    · exact .inr ⟨u, hb, hc⟩
  · rintro (h | h)
    · exact alt_seq_left h
    · exact alt_seq_right h

theorem star_seq_iff : seq (star a) c x y ↔ seq a (seq (star a) c) x y ∨ c x y := by
  constructor
  · rintro ⟨u, hstar, hc⟩
    rcases hstar.cases_head with rfl | ⟨v, ha, hstar⟩
    · exact .inr hc
    · exact .inl ⟨v, ha, u, hstar, hc⟩
  · rintro (h | h)
    · exact star_seq_again h
    · exact star_seq_done h

theorem skip_seq_iff : seq skip a x y ↔ a x y := by
  constructor
  · rintro ⟨u, rfl, h⟩
    exact h
  · exact skip_seq

theorem note_seq_iff {slot : Nat} {here : Cursor} {slots : Slots} :
    seq (note slot) a ⟨here, slots⟩ y ↔ a ⟨here, slots.note slot here⟩ y := by
  constructor
  · rintro ⟨u, rfl, h⟩
    exact h
  · exact note_seq

end Behaviour

namespace Backtracking

variable {ctx : Context}

def Task.simple : Task → Bool
  | .run e => e.simple
  | .note _ => true
  | _ => false

/-- What is still to be done, where it is simple. -/
def Task.exact (ctx : Context) : Task → Behaviour
  | .run e => e.exact ctx
  | .note slot => .note slot
  | _ => .skip

/-- What simple tasks do, one after the other. -/
def exactAll (ctx : Context) : List Task → Behaviour
  | [] => .skip
  | task :: tasks => .seq (task.exact ctx) (exactAll ctx tasks)

/-- Whether a thread with simple tasks can end in `o`. -/
def Thread.opens (ctx : Context) (t : Thread) (o : Regular.Outcome) : Prop :=
  exactAll ctx t.tasks ⟨t.here, t.slots⟩ o

def Thread.Simple (t : Thread) : Prop :=
  ∀ task ∈ t.tasks, task.simple = true

/-- What a thread with simple tasks does next, and what that leaves open. A refusal takes three
    moves, so it is only named. -/
inductive Turned (ctx : Context) (t : Thread) : Move → Prop where
  | go {u : Thread} : u.Simple → (∀ o, t.opens ctx o ↔ u.opens ctx o) → Turned ctx t (.go u)
  | choose {u v : Thread} : u.Simple → v.Simple →
      (∀ o, t.opens ctx o ↔ u.opens ctx o ∨ v.opens ctx o) → Turned ctx t (.choose u v)
  | fail : (∀ o, ¬ t.opens ctx o) → Turned ctx t .fail
  | done {here : Cursor} {slots : Slots} : t.opens ctx ⟨here, slots⟩ →
      Turned ctx t (.done here slots)
  | refuse {p : Part} {rest : List Task} {m : Move} :
      t.tasks = .run (.refuse (.part p)) :: rest → Turned ctx t m

section

variable {t : Thread} {rest : List Task} {depth : Nat}

theorem simple_cons {task : Task} {here : Cursor} {slots : Slots} {cuts : List Nat} :
    Thread.Simple ⟨task :: rest, here, slots, cuts⟩ ↔
      task.simple = true ∧ ∀ u ∈ rest, u.simple = true :=
  List.forall_mem_cons

theorem turned_begin {e : Program} {here : Cursor} {slots : Slots} {cuts : List Nat}
    (he : e.simple = true) (hrest : ∀ u ∈ rest, u.simple = true) :
    Turned ctx ⟨.run e :: rest, here, slots, cuts⟩
      (begin ctx depth ⟨.run e :: rest, here, slots, cuts⟩ rest e) := by
  cases e with
  | empty => exact .go hrest fun o => Behaviour.skip_seq_iff
  | one set =>
    simp only [begin, Thread.move]
    cases hthere : here.eat? set with
    | none =>
      refine .fail ?_
      rintro o ⟨y, ⟨there, hthere', -⟩, -⟩
      simp only [hthere, reduceCtorEq] at hthere'
    | some there =>
      refine .go hrest fun o => ⟨?_, Behaviour.move_seq hthere⟩
      rintro ⟨y, ⟨there', hthere', rfl⟩, h⟩
      simp only [hthere, Option.some.injEq] at hthere'
      subst hthere'
      exact h
  | assertion a =>
    simp only [begin, Thread.check]
    cases ha : a.holds here with
    | false =>
      refine .fail ?_
      rintro o ⟨y, ⟨ha', -⟩, -⟩
      simp only [ha, Bool.false_eq_true] at ha'
    | true =>
      refine .go hrest fun o => ⟨?_, Behaviour.check_seq (p := fun x => a.holds x.here) ha⟩
      rintro ⟨y, ⟨-, rfl⟩, h⟩
      exact h
  | seq a b =>
    simp only [Program.simple, Bool.and_eq_true] at he
    exact .go (simple_cons.2 ⟨he.1, List.forall_mem_cons.2 ⟨he.2, hrest⟩⟩)
      fun o => Behaviour.seq_assoc_iff
  | alt a b =>
    simp only [Program.simple, Bool.and_eq_true] at he
    exact .choose (simple_cons.2 ⟨he.1, hrest⟩) (simple_cons.2 ⟨he.2, hrest⟩)
      fun o => Behaviour.alt_seq_iff
  | group n e =>
    refine .go (simple_cons.2 ⟨he, List.forall_mem_cons.2 ⟨rfl, hrest⟩⟩) fun o => ?_
    exact Behaviour.seq_assoc_iff.trans (Behaviour.note_seq_iff.trans Behaviour.seq_assoc_iff)
  | star greedy e =>
    have hagain : Thread.Simple ⟨.run e :: .run (.star greedy e) :: rest, here, slots, cuts⟩ :=
      simple_cons.2 ⟨he, List.forall_mem_cons.2 ⟨he, hrest⟩⟩
    cases greedy with
    | true => exact .choose hagain hrest fun o => Behaviour.star_seq_iff
    | false => exact .choose hrest hagain fun o => Behaviour.star_seq_iff.trans or_comm
  | refuse e =>
    cases e with
    | part p => exact .refuse rfl
    | _ => simp [Program.simple] at he
  | _ => simp [Program.simple] at he

theorem turned (ht : t.Simple) : Turned ctx t (step ctx depth t) := by
  obtain ⟨tasks, here, slots, cuts⟩ := t
  cases tasks with
  | nil => exact .done rfl
  | cons task rest =>
    obtain ⟨htask, hrest⟩ := simple_cons.1 ht
    cases task with
    | run e => exact turned_begin htask hrest
    | note slot => exact .go hrest fun o => Behaviour.note_seq_iff
    | _ => simp [Task.simple] at htask

end

/-- What the result of a run says of the threads that it began with, if the run has not given
    up. -/
def Result.Exact (ctx : Context) (stack : List Thread) : Result → Prop
  | .found here slots => ∃ t ∈ stack, t.opens ctx ⟨here, slots⟩
  | .failed => ∀ t ∈ stack, ∀ o, ¬ t.opens ctx o
  | .gaveUp | .crossed => True

/-- The outcome that a result stands for, unless the search could not be carried out. -/
def Result.outcome? : Result → Option (Option Regular.Outcome)
  | .found here slots => some (some ⟨here, slots⟩)
  | .failed => some none
  | .gaveUp | .crossed => none

section

variable {t u v : Thread} {stack : List Thread} {r : Result} {here : Cursor} {slots : Slots}

theorem Result.Exact.cons (ht : ∀ o, ¬ t.opens ctx o) (h : r.Exact ctx stack) :
    r.Exact ctx (t :: stack) := by
  cases r with
  | found here slots =>
    obtain ⟨w, hw, hopens⟩ := h
    exact ⟨w, List.mem_cons_of_mem _ hw, hopens⟩
  | failed => exact List.forall_mem_cons.2 ⟨ht, h⟩
  | gaveUp => trivial
  | crossed => trivial

theorem Result.Exact.go (ht : ∀ o, t.opens ctx o ↔ u.opens ctx o)
    (h : r.Exact ctx (u :: stack)) : r.Exact ctx (t :: stack) := by
  cases r with
  | found here slots =>
    obtain ⟨w, hw, hopens⟩ := h
    rcases List.mem_cons.1 hw with rfl | hw
    · exact ⟨t, List.mem_cons_self, (ht _).2 hopens⟩
    · exact ⟨w, List.mem_cons_of_mem _ hw, hopens⟩
  | failed =>
    obtain ⟨hu, hstack⟩ := List.forall_mem_cons.1 h
    exact List.forall_mem_cons.2 ⟨fun o ho => hu o ((ht o).1 ho), hstack⟩
  | gaveUp => trivial
  | crossed => trivial

theorem Result.Exact.choose (ht : ∀ o, t.opens ctx o ↔ u.opens ctx o ∨ v.opens ctx o)
    (h : r.Exact ctx (u :: v :: stack)) : r.Exact ctx (t :: stack) := by
  cases r with
  | found here slots =>
    obtain ⟨w, hw, hopens⟩ := h
    rcases List.mem_cons.1 hw with rfl | hw
    · exact ⟨t, List.mem_cons_self, (ht _).2 (.inl hopens)⟩
    · rcases List.mem_cons.1 hw with rfl | hw
      · exact ⟨t, List.mem_cons_self, (ht _).2 (.inr hopens)⟩
      · exact ⟨w, List.mem_cons_of_mem _ hw, hopens⟩
  | failed =>
    obtain ⟨hu, hrest⟩ := List.forall_mem_cons.1 h
    obtain ⟨hv, hstack⟩ := List.forall_mem_cons.1 hrest
    refine List.forall_mem_cons.2 ⟨?_, hstack⟩
    intro o ho
    rcases (ht o).1 ho with ho | ho
    · exact hu o ho
    · exact hv o ho
  | gaveUp => trivial
  | crossed => trivial

theorem exact_spend {next : Nat → Thread → List Thread → Result × Nat} {budget : Nat}
    (hnext : ∀ budget t rest, stack = t :: rest → (next budget t rest).1.Exact ctx stack) :
    (spend next budget stack).1.Exact ctx stack := by
  unfold spend
  split
  · exact List.forall_mem_nil _
  · trivial
  · exact hnext _ _ _ rfl

/-- A refusal of a part passes where the part has no match, and fails where it has one. -/
theorem opens_refuse {p : Part} {rest : List Task} {cuts : List Nat} {o : Regular.Outcome} :
    Thread.opens ctx ⟨.run (.refuse (.part p)) :: rest, here, slots, cuts⟩ o ↔
      p.first ctx.bytes here = none ∧ Thread.opens ctx ⟨rest, here, slots, cuts⟩ o := by
  constructor
  · rintro ⟨y, ⟨hnone, rfl⟩, h⟩
    exact ⟨Option.isNone_iff_eq_none.1 hnone, h⟩
  · rintro ⟨hnone, h⟩
    exact ⟨_, ⟨Option.isNone_iff_eq_none.2 hnone, rfl⟩, h⟩

/-- A run of simple threads is exact. -/
theorem exact_run {fuel budget : Nat} (ht : t.Simple) (hstack : ∀ u ∈ stack, u.Simple) :
    (run ctx fuel budget stack.length t stack).1.Exact ctx (t :: stack) := by
  induction fuel using Nat.strongRecOn generalizing budget t stack with
  | ind fuel ih =>
  cases fuel with
  | zero => trivial
  | succ fuel =>
    have hpop : ∀ n < fuel + 1, ∀ budget, ∀ stack : List Thread, (∀ u ∈ stack, u.Simple) →
        (spend (fun budget => run ctx n budget (stack.length - 1)) budget stack).1.Exact ctx
          stack := by
      intro n hn budget stack hstack
      refine exact_spend fun budget u rest hu => ?_
      subst hu
      obtain ⟨hu, hrest⟩ := List.forall_mem_cons.1 hstack
      exact ih n hn hu hrest
    have hturned : Turned ctx t (step ctx stack.length t) := turned ht
    rw [run]
    generalize hm : step ctx stack.length t = m at hturned
    cases hturned with
    | go hu hopens => exact (ih fuel (by omega) hu hstack).go hopens
    | choose hu hv hopens =>
      dsimp only
      split
      · exact (ih fuel (by omega) hu (List.forall_mem_cons.2 ⟨hv, hstack⟩)).choose hopens
      · trivial
    | fail hfail => exact (hpop fuel (by omega) budget stack hstack).cons hfail
    | done hopens => exact ⟨t, List.mem_cons_self, hopens⟩
    | @refuse p rest _ htasks =>
      obtain ⟨tasks, here, slots, cuts⟩ := t
      cases htasks
      obtain ⟨-, hrest⟩ := simple_cons.1 ht
      have hother : Thread.Simple ⟨rest, here, slots, cuts⟩ := hrest
      obtain rfl : m = .choose
          ⟨.run (.part p) :: .refuse stack.length :: rest, here, slots, cuts⟩
          ⟨rest, here, slots, cuts⟩ := hm.symm
      dsimp only
      split
      · -- the part is tried on top of the other branch
        cases fuel with
        | zero => trivial
        | succ fuel =>
          rw [run]
          simp only [step, begin]
          cases hfirst : p.first ctx.bytes here with
          | none =>
            have hall : ∀ u ∈ Thread.mk rest here slots cuts :: stack, u.Simple :=
              List.forall_mem_cons.2 ⟨hother, hstack⟩
            refine (hpop fuel (by omega) budget _ hall).go fun o => ?_
            rw [opens_refuse]
            exact and_iff_right hfirst
          | some found =>
            -- a match of the part drops the other branch
            have hfail : ∀ o, ¬ Thread.opens ctx
                ⟨.run (.refuse (.part p)) :: rest, here, slots, cuts⟩ o := by
              intro o ho
              rw [opens_refuse, hfirst] at ho
              simp at ho
            dsimp only
            cases fuel with
            | zero => trivial
            | succ fuel =>
              have hdrop : (Thread.mk rest here slots cuts :: stack).drop
                  (stack.length + 1 - stack.length) = stack := by
                simp
              rw [run]
              simp only [step, hdrop]
              exact (hpop fuel (by omega) budget stack hstack).cons hfail
      · trivial

theorem opens_opening {e : Program} {o : Regular.Outcome} :
    Thread.opens ctx ⟨[.run e], here, slots, []⟩ o ↔ e.exact ctx ⟨here, slots⟩ o := by
  constructor
  · rintro ⟨y, h, rfl⟩
    exact h
  · intro h
    exact ⟨o, h, rfl⟩

/-- A run of one simple program is exact. -/
theorem exact_run_opening {e : Program} {fuel budget left : Nat} (he : e.simple = true)
    (h : run ctx fuel budget 0 ⟨[.run e], here, .none, []⟩ [] = (r, left)) :
    r.Exact ctx [⟨[.run e], here, .none, []⟩] := by
  have ht : Thread.Simple ⟨[.run e], here, .none, []⟩ := simple_cons.2 ⟨he, List.forall_mem_nil _⟩
  have hrun : (run ctx fuel budget 0 ⟨[.run e], here, .none, []⟩ []).1.Exact ctx
      [⟨[.run e], here, .none, []⟩] := exact_run ht (List.forall_mem_nil _)
  rwa [h] at hrun

theorem not_exact_of_run {e : Program} {fuel budget left : Nat} (he : e.simple = true)
    (h : run ctx fuel budget 0 ⟨[.run e], here, .none, []⟩ [] = (.failed, left))
    (o : Regular.Outcome) : ¬ e.exact ctx ⟨here, .none⟩ o :=
  fun ho => List.forall_mem_singleton.1 (exact_run_opening he h) o (opens_opening.2 ho)

theorem searched_of_run {e : Program} {fuel budget left : Nat} {found : Option Regular.Outcome}
    (he : e.simple = true) (hr : r ≠ .failed)
    (h : run ctx fuel budget 0 ⟨[.run e], here, .none, []⟩ [] = (r, left))
    (hfound : r.outcome? = some found) :
    Searched (fun q o => e.exact ctx ⟨q, .none⟩ o) here found := by
  cases r with
  | found there slots =>
    cases hfound
    obtain ⟨t, ht, hopens⟩ := exact_run_opening he h
    cases List.mem_singleton.1 ht
    exact .at_here (opens_opening.1 hopens)
  | failed => exact absurd rfl hr
  | gaveUp => simp [Result.outcome?] at hfound
  | crossed => simp [Result.outcome?] at hfound

/-- A search for a simple program is exact, if it does not give up. -/
theorem searched_search {e : Program} {fuel budget : Nat} {found : Option Regular.Outcome}
    (he : e.simple = true)
    (h : (search ctx fuel e budget here.after here).outcome? = some found) :
    Searched (fun q o => e.exact ctx ⟨q, .none⟩ o) here found := by
  generalize hrest : here.after = rest at h
  induction rest generalizing here budget with
  | nil =>
    unfold search at h
    split at h
    · rename_i left hrun
      split at h
      · simp [Result.outcome?] at h
      · rename_i hcons _
        cases hcons
      · cases h
        exact .at_end hrest (not_exact_of_run he hrun)
    · rename_i result left hr hrun
      exact searched_of_run he hr hrun h
  | cons x rest ih =>
    obtain ⟨there, hnext, hafter⟩ := Cursor.next?_cons hrest
    unfold search at h
    rw [hnext] at h
    split at h
    · rename_i left hrun
      split at h
      · simp [Result.outcome?] at h
      · rename_i hcons heq
        cases hcons
        cases heq
        exact .behind hnext (not_exact_of_run he hrun) (ih hafter h)
      · rename_i left hleft hnone
        obtain ⟨budget, rfl⟩ := Nat.exists_eq_succ_of_ne_zero hleft
        exact (hnone _ _ _ _ _ rfl rfl rfl).elim
    · rename_i result left hr hrun
      exact searched_of_run he hr hrun h

end

end Backtracking

end SyntaxHue
