import SyntaxHue.Proofs.Regex.Backtrack
import SyntaxHue.Regex.Search

/-!
# Searches without references

A search fails as a whole only at a reference to a group whose text ends before it starts. A
program without references therefore always has an answer; that it gives up, when its budget is
spent, is the answer that there is no match.
-/

namespace SyntaxHue

namespace Program

/-- Whether the program refers to the text of a group. -/
def refers : Program → Bool
  | backref .. => true
  | seq a b | alt a b => a.refers || b.refers
  | group _ e | star _ e | times _ _ _ e | passes _ _ e | atomic e | stay e | refuse e => e.refers
  | cond test yes no => test.refers || yes.refers || no.refers
  | empty | one _ | assertion _ | part _ | back _ | backOver .. | keepOut | searchStart
  | isSet _ => false

end Program

namespace Backtracking

/-- What is still to be done refers to no group. -/
def Task.Free : Task → Prop
  | .run e | .times _ _ _ e _ | .passes _ _ e _ _ => e.refers = false
  | .note _ | .commit | .resume _ | .refuse _ => True

def Thread.Free (t : Thread) : Prop :=
  ∀ task ∈ t.tasks, task.Free

/-- A move that leads to no reference. -/
def Move.Free : Move → Prop
  | .go t | .commit _ t => t.Free
  | .choose t other => t.Free ∧ other.Free
  | .fail | .refuse _ | .done .. => True
  | .crossed => False

variable {ctx : Context} {depth : Nat} {t : Thread} {task : Task} {rest again : List Task}

theorem free_cons {here : Cursor} {slots : Slots} {cuts : List Nat} :
    Thread.Free ⟨task :: rest, here, slots, cuts⟩ ↔ task.Free ∧ ∀ u ∈ rest, u.Free := by
  simp [Thread.Free]

theorem free_move (hrest : ∀ u ∈ rest, u.Free) (there? : Option Cursor) :
    (t.move rest there?).Free := by
  unfold Thread.move
  split
  · exact hrest
  · trivial

theorem free_check (hrest : ∀ u ∈ rest, u.Free) (yes : Bool) : (t.check rest yes).Free := by
  unfold Thread.check
  split
  · exact hrest
  · trivial

theorem free_loop (hagain : ∀ u ∈ again, u.Free) (hrest : ∀ u ∈ rest, u.Free) (greedy : Bool) :
    (t.loop greedy again rest).Free := by
  cases greedy with
  | true => exact ⟨hagain, hrest⟩
  | false => exact ⟨hrest, hagain⟩

theorem free_begin {e : Program} (he : e.refers = false) (hrest : ∀ u ∈ rest, u.Free) :
    (begin ctx depth t rest e).Free := by
  cases e with
  | empty => exact hrest
  | one set => exact free_move hrest _
  | assertion a => exact free_check hrest _
  | part p =>
    simp only [begin]
    split
    · exact hrest
    · trivial
  | seq a b =>
    simp only [Program.refers, Bool.or_eq_false_iff] at he
    exact free_cons.2 ⟨he.1, List.forall_mem_cons.2 ⟨he.2, hrest⟩⟩
  | alt a b =>
    simp only [Program.refers, Bool.or_eq_false_iff] at he
    exact ⟨free_cons.2 ⟨he.1, hrest⟩, free_cons.2 ⟨he.2, hrest⟩⟩
  | group n e => exact free_cons.2 ⟨he, List.forall_mem_cons.2 ⟨trivial, hrest⟩⟩
  | star greedy e =>
    have hagain : ∀ u ∈ Task.run e :: Task.run (.star greedy e) :: rest, u.Free :=
      List.forall_mem_cons.2 ⟨he, List.forall_mem_cons.2 ⟨he, hrest⟩⟩
    exact free_loop hagain hrest _
  | times lo hi greedy e => exact free_cons.2 ⟨he, hrest⟩
  | passes lo greedy e => exact free_cons.2 ⟨he, hrest⟩
  | atomic e => exact free_cons.2 ⟨he, List.forall_mem_cons.2 ⟨trivial, hrest⟩⟩
  | stay e => exact free_cons.2 ⟨he, List.forall_mem_cons.2 ⟨trivial, hrest⟩⟩
  | refuse e => exact ⟨free_cons.2 ⟨he, List.forall_mem_cons.2 ⟨trivial, hrest⟩⟩, hrest⟩
  | back width => exact free_move hrest _
  | backOver p ahead =>
    simp only [begin, Thread.backOver]
    split
    · trivial
    · exact hrest
    · split
      · exact hrest
      · trivial
  | backref n anyCase => simp [Program.refers] at he
  | keepOut => exact hrest
  | searchStart => exact free_check hrest _
  | isSet n => exact free_check hrest _
  | cond test yes no =>
    simp only [Program.refers, Bool.or_eq_false_iff] at he
    refine ⟨free_cons.2 ⟨he.1.1, ?_⟩, free_cons.2 ⟨he.2, hrest⟩⟩
    exact List.forall_mem_cons.2 ⟨trivial, List.forall_mem_cons.2 ⟨he.1.2, hrest⟩⟩

/-- A thread without references moves to threads without references. -/
theorem Thread.Free.step (h : t.Free) : (step ctx depth t).Free := by
  obtain ⟨tasks, here, slots, cuts⟩ := t
  cases tasks with
  | nil => trivial
  | cons task rest =>
    obtain ⟨htask, hrest⟩ := free_cons.1 h
    cases task with
    | run e => exact free_begin htask hrest
    | note slot => exact hrest
    | times lo hi greedy e count =>
      have hagain : ∀ u ∈ Task.run e :: Task.times lo hi greedy e (count + 1) :: rest, u.Free :=
        List.forall_mem_cons.2 ⟨htask, List.forall_mem_cons.2 ⟨htask, hrest⟩⟩
      simp only [Backtracking.step]
      split
      · exact hrest
      · split
        · exact hagain
        · exact free_loop hagain hrest _
    | passes lo greedy e count mark =>
      have hagain : ∀ mark, ∀ u ∈ Task.run e :: Task.passes lo greedy e (count + 1) mark :: rest,
          u.Free := fun _ => List.forall_mem_cons.2 ⟨htask, List.forall_mem_cons.2 ⟨htask, hrest⟩⟩
      simp only [Backtracking.step]
      split
      · exact hrest
      · split
        · exact hagain _
        · exact free_loop (hagain _) hrest _
    | commit =>
      simp only [Backtracking.step]
      cases cuts with
      | nil => exact hrest
      | cons cut cuts => exact hrest
    | resume c => exact hrest
    | refuse depth => trivial

theorem spend_ne_crossed {next : Nat → Thread → List Thread → Result × Nat} {budget : Nat}
    {stack : List Thread} (hstack : ∀ u ∈ stack, u.Free)
    (hnext : ∀ budget t stack, t.Free → (∀ u ∈ stack, u.Free) →
      (next budget t stack).1 ≠ .crossed) : (spend next budget stack).1 ≠ .crossed := by
  unfold spend
  split
  · simp
  · simp
  · exact hnext _ _ _ (hstack _ List.mem_cons_self) fun u hu => hstack u (List.mem_cons_of_mem _ hu)

theorem run_ne_crossed {fuel budget : Nat} {stack : List Thread} (ht : t.Free)
    (hstack : ∀ u ∈ stack, u.Free) : (run ctx fuel budget depth t stack).1 ≠ .crossed := by
  induction fuel generalizing budget depth t stack with
  | zero => simp [run]
  | succ fuel ih =>
    have hdrop : ∀ n, ∀ u ∈ stack.drop n, u.Free := fun n u hu => hstack u (List.mem_of_mem_drop hu)
    have hstep : (step ctx depth t).Free := ht.step
    rw [run]
    split
    · rename_i u hu
      rw [hu] at hstep
      exact ih hstep hstack
    · rename_i u other hu
      rw [hu] at hstep
      split
      · exact ih hstep.1 (List.forall_mem_cons.2 ⟨hstep.2, hstack⟩)
      · simp
    · rename_i cut u hu
      rw [hu] at hstep
      exact ih hstep (hdrop _)
    · exact spend_ne_crossed hstack fun _ _ _ => ih
    · exact spend_ne_crossed (hdrop _) fun _ _ _ => ih
    · simp
    · rename_i hu
      rw [hu] at hstep
      exact hstep.elim

theorem search_ne_crossed {e : Program} {fuel budget : Nat} {rest : List Char} {here : Cursor}
    (he : e.refers = false) : search ctx fuel e budget rest here ≠ .crossed := by
  have hrun : ∀ budget here, (run ctx fuel budget 0 ⟨[.run e], here, .none, []⟩ []).1 ≠ .crossed :=
    fun _ _ => run_ne_crossed (free_cons.2 ⟨he, by simp⟩) (by simp)
  induction rest generalizing budget here with
  | nil =>
    unfold search
    split
    · split <;> simp_all
    · rename_i result left hfailed hresult
      intro hcrossed
      exact hrun budget here (by rw [hresult, hcrossed])
  | cons c rest ih =>
    unfold search
    split
    · split
      · simp
      · rename_i hcons _ _
        cases hcons
        exact ih
      · simp
    · rename_i result left hfailed hresult
      intro hcrossed
      exact hrun budget here (by rw [hresult, hcrossed])

end Backtracking

namespace Regex

/-- Whether the expression refers to the text of a group. -/
def refers (r : Regex) : Bool :=
  match r.matcher with
  | .regular _ => false
  | .backtracking e => e.refers

/-- A search without references has an answer. -/
theorem exists_of_search {r : Regex} (h : r.refers = false) (here : Cursor) :
    ∃ found, r.search here = .ok found := by
  obtain ⟨matcher, groups⟩ := r
  simp only [search, searchWithin]
  cases matcher with
  | regular p => exact ⟨_, rfl⟩
  | backtracking e =>
    dsimp only
    split
    · exact ⟨_, rfl⟩
    · exact ⟨_, rfl⟩
    · exact ⟨_, rfl⟩
    · rename_i hcrossed
      exact absurd hcrossed (Backtracking.search_ne_crossed h)

end Regex

end SyntaxHue
