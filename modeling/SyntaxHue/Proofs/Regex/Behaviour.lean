import Mathlib.Logic.Relation
import SyntaxHue.Regex.Backtracking

/-!
# What programs do

The meaning of a program without the order in which choices are tried: from which places and
groups it can lead to which. A search that finds something has followed one of these ways, so what
holds of all of them holds of every match.
-/

namespace SyntaxHue

/-- From which places and groups something leads to which. -/
abbrev Behaviour := Regular.Outcome → Regular.Outcome → Prop

namespace Behaviour

def skip : Behaviour := fun x y => y = x

def seq (a b : Behaviour) : Behaviour := fun x z => ∃ y, a x y ∧ b y z

def alt (a b : Behaviour) : Behaviour := fun x y => a x y ∨ b x y

/-- Moves, and leaves the groups alone. -/
def move (there? : Cursor → Option Cursor) : Behaviour := fun x y =>
  ∃ there, there? x.here = some there ∧ y = ⟨there, x.slots⟩

/-- Stays, if something holds. -/
def check (holds : Regular.Outcome → Bool) : Behaviour := fun x y => holds x = true ∧ y = x

/-- Notes the place. -/
def note (slot : Nat) : Behaviour := fun x y => y = ⟨x.here, x.slots.note slot x.here⟩

/-- Notes the places before and behind group `n`. -/
def group (n : Nat) (a : Behaviour) : Behaviour := seq (note (2 * n)) (seq a (note (2 * n + 1)))

/-- Any number of times. -/
def star (a : Behaviour) : Behaviour := Relation.ReflTransGen a

theorem skip_seq {a : Behaviour} {x y : Regular.Outcome} (h : a x y) : seq skip a x y :=
  ⟨x, rfl, h⟩

theorem move_seq {there? : Cursor → Option Cursor} {a : Behaviour} {here there : Cursor}
    {slots : Slots} {y : Regular.Outcome} (hthere : there? here = some there)
    (h : a ⟨there, slots⟩ y) : seq (move there?) a ⟨here, slots⟩ y :=
  ⟨⟨there, slots⟩, ⟨there, hthere, rfl⟩, h⟩

theorem check_seq {p : Regular.Outcome → Bool} {a : Behaviour} {here : Cursor} {slots : Slots}
    {y : Regular.Outcome} (hx : p ⟨here, slots⟩ = true) (h : a ⟨here, slots⟩ y) :
    seq (check p) a ⟨here, slots⟩ y :=
  ⟨_, ⟨hx, rfl⟩, h⟩

theorem note_seq {slot : Nat} {a : Behaviour} {here : Cursor} {slots : Slots}
    {y : Regular.Outcome} (h : a ⟨here, slots.note slot here⟩ y) :
    seq (note slot) a ⟨here, slots⟩ y :=
  ⟨_, rfl, h⟩

theorem seq_assoc {a b c : Behaviour} {x y : Regular.Outcome} (h : seq a (seq b c) x y) :
    seq (seq a b) c x y := by
  obtain ⟨u, ha, v, hb, hc⟩ := h
  exact ⟨v, ⟨u, ha, hb⟩, hc⟩

theorem group_seq {n : Nat} {a c : Behaviour} {here : Cursor} {slots : Slots}
    {y : Regular.Outcome}
    (h : seq a (seq (note (2 * n + 1)) c) ⟨here, slots.note (2 * n) here⟩ y) :
    seq (group n a) c ⟨here, slots⟩ y :=
  seq_assoc (note_seq (seq_assoc h))

theorem alt_seq_left {a b c : Behaviour} {x y : Regular.Outcome} (h : seq a c x y) :
    seq (alt a b) c x y := by
  obtain ⟨z, ha, hc⟩ := h
  exact ⟨z, .inl ha, hc⟩

theorem alt_seq_right {a b c : Behaviour} {x y : Regular.Outcome} (h : seq b c x y) :
    seq (alt a b) c x y := by
  obtain ⟨z, hb, hc⟩ := h
  exact ⟨z, .inr hb, hc⟩

theorem star_seq_again {a c : Behaviour} {x y : Regular.Outcome} (h : seq a (seq (star a) c) x y) :
    seq (star a) c x y := by
  obtain ⟨u, ha, v, hstar, hc⟩ := h
  exact ⟨v, Relation.ReflTransGen.head ha hstar, hc⟩

theorem star_seq_done {a c : Behaviour} {x y : Regular.Outcome} (h : c x y) :
    seq (star a) c x y :=
  ⟨x, Relation.ReflTransGen.refl, h⟩

end Behaviour

namespace Regular

/-- What a regular program does. -/
def does (r : Reading) : Regular → Behaviour
  | .empty => .skip
  | .one set => .move (r.eat? set)
  | .assertion a => .check fun x => a.holds x.here
  | .seq a b => .seq (a.does r) (b.does r)
  | .alt _ a b => .alt (a.does r) (b.does r)
  | .group n e => .group n (e.does r)
  | .star _ _ e => .star (e.does r)

def Task.does (r : Reading) : Task → Behaviour
  | .run e => e.does r
  | .note slot => .note slot

/-- What tasks do, one after the other. -/
def doAll (r : Reading) : List Task → Behaviour
  | [] => .skip
  | task :: tasks => .seq (task.does r) (doAll r tasks)

/-- The ways in which a thread can end. -/
def Thread.ends (r : Reading) (t : Thread) (o : Outcome) : Prop :=
  doAll r t.tasks ⟨t.here, t.slots⟩ o

/-- Whether one of the threads of a stack can end in `o`. -/
def Ends (r : Reading) (stack : List Thread) (o : Outcome) : Prop :=
  ∃ t ∈ stack, t.ends r o

section

variable {r : Reading} {stack : List Thread} {o : Outcome} {t u v : Thread}

theorem Ends.cons (h : Ends r stack o) : Ends r (t :: stack) o := by
  obtain ⟨u, hu, hends⟩ := h
  exact ⟨u, List.mem_cons_of_mem _ hu, hends⟩

theorem Ends.step (h : Ends r (u :: stack) o) (hu : u.ends r o → t.ends r o) :
    Ends r (t :: stack) o := by
  obtain ⟨w, hw, hends⟩ := h
  rcases List.mem_cons.1 hw with rfl | hw
  · exact ⟨t, List.mem_cons_self, hu hends⟩
  · exact ⟨w, List.mem_cons_of_mem _ hw, hends⟩

theorem Ends.choice (h : Ends r (u :: v :: stack) o) (hu : u.ends r o → t.ends r o)
    (hv : v.ends r o → t.ends r o) : Ends r (t :: stack) o := by
  obtain ⟨w, hw, hends⟩ := h
  rcases List.mem_cons.1 hw with rfl | hw
  · exact ⟨t, List.mem_cons_self, hu hends⟩
  · exact Ends.step ⟨w, hw, hends⟩ hv

end

/-- What a run finds is the end of one of its threads. -/
theorem ends_of_run {r : Reading} {labels fuel : Nat} {stack : List Thread} {taken : Taken}
    {o : Outcome} (h : (run r labels fuel stack taken).1 = some o) : Ends r stack o := by
  fun_induction run r labels fuel stack taken with
  | case1 => simp at h
  | case2 => simp at h
  | case3 fuel here slots stack taken =>
    simp only [Option.some.injEq] at h
    subst h
    exact ⟨_, List.mem_cons_self, rfl⟩
  | case4 fuel here slots stack taken slot rest ih =>
    exact (ih h).step Behaviour.note_seq
  | case5 fuel here slots stack taken rest ih =>
    exact (ih h).step Behaviour.skip_seq
  | case6 fuel here slots stack taken rest set there hthere ih =>
    exact (ih h).step (Behaviour.move_seq hthere)
  | case7 fuel here slots stack taken rest set hnone ih => exact (ih h).cons
  | case8 fuel here slots stack taken rest a ha ih =>
    exact (ih h).step (Behaviour.check_seq (p := fun x => a.holds x.here) ha)
  | case9 fuel here slots stack taken rest a ha ih => exact (ih h).cons
  | case10 fuel here slots stack taken rest a b ih =>
    exact (ih h).step Behaviour.seq_assoc
  | case11 fuel here slots stack taken rest n a ih =>
    exact (ih h).step Behaviour.group_seq
  | case12 fuel here slots stack taken rest label a b key htaken ih => exact (ih h).cons
  | case13 fuel here slots stack taken rest label a b key htaken ih =>
    exact (ih h).choice Behaviour.alt_seq_left Behaviour.alt_seq_right
  | case14 fuel here slots stack taken rest label greedy a key htaken ih => exact (ih h).cons
  | case15 fuel here slots stack taken rest label greedy a key htaken again done ih =>
    cases greedy with
    | true => exact (ih h).choice Behaviour.star_seq_again Behaviour.star_seq_done
    | false => exact (ih h).choice Behaviour.star_seq_done Behaviour.star_seq_again

/-- What a run of one program finds is what the program does. -/
theorem does_of_run {r : Reading} {labels fuel : Nat} {e : Regular} {here : Cursor}
    {slots : Slots} {taken : Taken} {o : Outcome}
    (h : (run r labels fuel [⟨[.run e], here, slots⟩] taken).1 = some o) :
    e.does r ⟨here, slots⟩ o := by
  obtain ⟨t, ht, hends⟩ := ends_of_run h
  cases List.mem_singleton.1 ht
  obtain ⟨y, hdoes, hskip⟩ := hends
  cases hskip
  exact hdoes

end Regular

end SyntaxHue
